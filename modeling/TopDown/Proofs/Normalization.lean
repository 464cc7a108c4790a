import TopDown.Normalization
import TopDown.Proofs.EliminationOrder
import TopDown.Proofs.Factoring
import TopDown.Proofs.UnitRules

/-!
# Normalization keeps the language

Both routes of a normalization, put together from what their stages keep. On the way of left-recursion removal the empty word is
lost at the first stage and brought back at the last, by a fresh start that nothing mentions; where the empty word is all there
is, trimming finds a start that generates nothing and the grammar of the empty word takes its place. Factoring keeps the words
as they are. So a normalization is refused exactly when the grammar is not well-formed or its language is empty.

Main statements: `language_normalize`, `normalize_safe` and `exists_normalize_eq_ok_iff`.
-/

namespace TopDown

open Production (reading)

namespace Grammar

theorem startNullable_iff {g : Grammar} : g.startNullable = true ↔ g.Language [] := by
  rw [startNullable, List.contains_iff_mem, mem_nullable_iff, language_iff_mem_words]

/-! ## The empty word brought back -/

/-- A grammar generates no more than another that has its productions, up to a nonterminal that none of them mentions. -/
theorem mem_words_of_unmentioned {g h : Grammar} {other : Nonterminal}
    (hsub : ∀ nt ≠ other, ∀ p ∈ h.productionsOf nt, p ∈ g.productionsOf nt)
    (hmention : ∀ nt ≠ other, ∀ p ∈ h.productionsOf nt, .nonterminal other ∉ p) {nt : Nonterminal} (hnt : nt ≠ other)
    {word : List Char} (hw : word ∈ h.words nt) : word ∈ g.words nt := by
  have hsame : ∀ k ≠ other, Function.update g.words other ⊤ k = g.words k := fun k hk => Function.update_of_ne hk _ _
  have hclosed : h.Closed (Function.update g.words other ⊤) := by
    intro k p hp w hw
    by_cases hk : k = other
    · subst hk
      rw [Function.update_self]
      trivial
    · rw [Production.reading_update (hmention k hk p hp)] at hw
      rw [hsame k hk]
      exact words_closed g k p (hsub k hk p hp) w hw
  have hword := words_le hclosed hw
  rwa [hsame nt hnt] at hword

section Unmentioned

variable {g h : Grammar} {other : Nonterminal}

/-- Two grammars that differ in one nonterminal only, which one of them does not mention, generate the same from every other
nonterminal. -/
theorem mem_words_iff_of_unmentioned (hsame : ∀ nt ≠ other, h.productionsOf nt = g.productionsOf nt)
    (hmention : ∀ nt, ∀ p ∈ g.productionsOf nt, .nonterminal other ∉ p) {nt : Nonterminal} (hnt : nt ≠ other)
    {word : List Char} : word ∈ h.words nt ↔ word ∈ g.words nt := by
  constructor
  · refine mem_words_of_unmentioned (fun k hk p hp => hsame k hk ▸ hp) (fun k hk p hp => ?_) hnt
    rw [hsame k hk] at hp
    exact hmention k p hp
  · exact mem_words_of_unmentioned (fun k hk p hp => (hsame k hk).symm ▸ hp) (fun k _ p hp => hmention k p hp) hnt

/-- What leads in any other nonterminal is the same. -/
theorem leads_of_unmentioned (hsame : ∀ nt ≠ other, h.productionsOf nt = g.productionsOf nt)
    (hmention : ∀ nt, ∀ p ∈ g.productionsOf nt, .nonterminal other ∉ p) {lead nt : Nonterminal} (hnt : nt ≠ other)
    (hl : h.Leads lead nt) : g.Leads lead nt ∧ lead ≠ other := by
  obtain ⟨before, after, hp, hb⟩ := leads_iff.1 hl
  rw [hsame nt hnt] at hp
  have hread : reading h.words before = reading g.words before := by
    refine Production.reading_congr fun m hm => Language.ext fun w => mem_words_iff_of_unmentioned hsame hmention ?_
    rintro rfl
    exact hmention nt _ hp (List.mem_append_left _ hm)
  refine ⟨leads_iff.2 ⟨before, after, hp, hread ▸ hb⟩, ?_⟩
  rintro rfl
  exact hmention nt _ hp (List.mem_append_right before List.mem_cons_self)

end Unmentioned

/-- The fresh start generates what the old one does, or nothing; all others keep their productions. -/
theorem productionsOf_withEmptyWord (g : Grammar) (nt : Nonterminal) :
    g.withEmptyWord.productionsOf nt =
      if nt = g.freshNonterminal then [[.nonterminal g.start], []] else g.productionsOf nt := by
  have h : g.withEmptyWord.productionsOf nt = (g.addFresh g.start [[.nonterminal g.start], []]).productionsOf nt := rfl
  rw [h, productionsOf_addFresh]
  rfl

theorem freshNonterminal_not_mem {g : Grammar} (nt : Nonterminal) :
    ∀ p ∈ g.productionsOf nt, .nonterminal g.freshNonterminal ∉ p := fun _ hp hm =>
  ne_freshNonterminal_of_mention hp hm rfl

theorem start_ne_freshNonterminal (g : Grammar) : g.start ≠ g.freshNonterminal :=
  Nat.ne_of_lt (Nat.lt_succ_of_le g.start_le_maxNonterminal)

theorem productionsOf_withEmptyWord_of_ne {g : Grammar} {nt : Nonterminal} (h : nt ≠ g.freshNonterminal) :
    g.withEmptyWord.productionsOf nt = g.productionsOf nt := by
  rw [productionsOf_withEmptyWord, if_neg h]

/-- The empty word is added to the language, and nothing else. -/
theorem language_withEmptyWord_iff {g : Grammar} {word : List Char} :
    g.withEmptyWord.Language word ↔ g.Language word ∨ word = [] := by
  have hstart : word ∈ g.withEmptyWord.words g.start ↔ word ∈ g.words g.start :=
    mem_words_iff_of_unmentioned (fun _ hnt => productionsOf_withEmptyWord_of_ne hnt) freshNonterminal_not_mem
      g.start_ne_freshNonterminal
  have hfresh : g.withEmptyWord.productionsOf g.freshNonterminal = [[.nonterminal g.start], []] := by
    rw [productionsOf_withEmptyWord, if_pos rfl]
  rw [language_iff_mem_words, language_iff_mem_words, ← hstart]
  change word ∈ g.withEmptyWord.words g.freshNonterminal ↔ _
  rw [mem_words_iff, hfresh]
  simp

/-- The empty word is added to a well-formed grammar. -/
theorem WellFormed.withEmptyWord {g : Grammar} (hg : g.WellFormed) : g.withEmptyWord.WellFormed := by
  have hd : ∀ m, m ∈ g.withEmptyWord.declared ↔ m = g.freshNonterminal ∨ m ∈ g.declared := fun m => mem_declared_addFresh
  refine ⟨(hd _).2 (Or.inl rfl), fun nt p hp m hm => (hd m).2 (Or.inr ?_)⟩
  rw [productionsOf_withEmptyWord] at hp
  split at hp
  · rcases List.mem_cons.1 hp with rfl | hp
    · cases List.mem_singleton.1 hm
      exact hg.start
    · cases List.mem_singleton.1 hp
      exact nomatch hm
  · exact hg.mention nt p hp m hm

/-- The fresh start makes no left recursion. -/
theorem leftRecursive_withEmptyWord {g : Grammar} (hg : g.leftRecursive = false) :
    g.withEmptyWord.leftRecursive = false := by
  rw [leftRecursive_eq_false_iff] at hg ⊢
  have hold : ∀ nt, nt ≠ g.freshNonterminal → Acc g.withEmptyWord.Leads nt := by
    intro nt
    induction hg nt with
    | intro nt _ ih =>
      refine fun hnt => Acc.intro nt fun lead hl => ?_
      obtain ⟨hlead, hne⟩ := leads_of_unmentioned (fun _ hnt => productionsOf_withEmptyWord_of_ne hnt)
        freshNonterminal_not_mem hnt hl
      exact ih lead hlead hne
  intro nt
  by_cases hnt : nt = g.freshNonterminal
  · subst hnt
    refine Acc.intro _ fun lead hl => hold lead ?_
    obtain ⟨p, hp, hm⟩ := hl.exists_mention
    rw [productionsOf_withEmptyWord, if_pos rfl] at hp
    rcases List.mem_cons.1 hp with rfl | hp
    · cases List.mem_singleton.1 hm
      exact g.start_ne_freshNonterminal
    · rw [List.mem_singleton.1 hp] at hm
      exact nomatch hm
  · exact hold nt hnt

/-! ## The empty word alone -/

theorem declared_onlyEmptyWord (g : Grammar) : g.onlyEmptyWord.declared = [g.start] := by
  simp [onlyEmptyWord, declared, Rules.declared, Rules.ofList, distinct]

/-- The only production of the grammar of the empty word is empty. -/
theorem mem_productionsOf_onlyEmptyWord {g : Grammar} {nt : Nonterminal} {p : Production} :
    p ∈ g.onlyEmptyWord.productionsOf nt ↔ nt = g.start ∧ p = [] := by
  rw [productionsOf, onlyEmptyWord, ← Rules.mem_productions]
  simp [Rules.productions, Rules.ofList, distinct]

/-- The grammar of the empty word generates the empty word and no other. -/
theorem language_onlyEmptyWord_iff {g : Grammar} {word : List Char} : g.onlyEmptyWord.Language word ↔ word = [] := by
  rw [language_iff_mem_words, mem_words_iff]
  constructor
  · rintro ⟨p, hp, hw⟩
    rw [(mem_productionsOf_onlyEmptyWord.1 hp).2] at hw
    exact Production.mem_reading_nil.1 hw
  · intro hw
    exact ⟨[], mem_productionsOf_onlyEmptyWord.2 ⟨rfl, rfl⟩, Production.mem_reading_nil.2 hw⟩

/-- The grammar of the empty word is well-formed. -/
theorem wellFormed_onlyEmptyWord (g : Grammar) : g.onlyEmptyWord.WellFormed := by
  refine ⟨?_, fun nt p hp m hm => ?_⟩
  · rw [declared_onlyEmptyWord]
    exact List.mem_singleton.2 rfl
  · rw [(mem_productionsOf_onlyEmptyWord.1 hp).2] at hm
    exact nomatch hm

/-- The grammar of the empty word is not left-recursive. -/
theorem leftRecursive_onlyEmptyWord (g : Grammar) : g.onlyEmptyWord.leftRecursive = false := by
  rw [leftRecursive_eq_false_iff]
  refine fun nt => Acc.intro nt fun lead hl => ?_
  obtain ⟨p, hp, hm⟩ := hl.exists_mention
  rw [(mem_productionsOf_onlyEmptyWord.1 hp).2] at hm
  exact nomatch hm

/-! ## The first stages of left-recursion removal -/

/-- Without empty and unit productions every nonterminal generates what it did, but the empty word. -/
theorem mem_words_reduced_iff {g : Grammar} {nt : Nonterminal} {word : List Char} :
    word ∈ g.reduced.words nt ↔ word ∈ g.words nt ∧ word ≠ [] :=
  mem_words_withoutUnits_iff.trans mem_words_withoutEmpty_iff

theorem nil_not_mem_productionsOf_reduced (g : Grammar) (nt : Nonterminal) : [] ∉ g.reduced.productionsOf nt :=
  nil_not_mem_productionsOf_withoutUnits g.nil_not_mem_productionsOf_withoutEmpty nt

theorem WellFormed.reduced {g : Grammar} (hg : g.WellFormed) : g.reduced.WellFormed := hg.withoutEmpty.withoutUnits

theorem language_reduced_iff {g : Grammar} {word : List Char} : g.reduced.Language word ↔ g.Language word ∧ word ≠ [] :=
  mem_words_reduced_iff

/-- Trimming a reduced grammar succeeds when a word that is not empty is in the language. -/
theorem exists_trimmed_reduced {g : Grammar} (hg : g.WellFormed) {word : List Char} (hw : g.Language word)
    (hne : word ≠ []) : ∃ clean, g.reduced.trimmed = .ok clean :=
  ⟨_, trimmed_eq_ok_iff.2 ⟨rfl, hg.reduced, mem_productive_iff.2 ⟨word, language_reduced_iff.2 ⟨hw, hne⟩⟩⟩⟩

/-- Trimming a reduced grammar fails when no word is in the language but the empty one. -/
theorem trimmed_reduced_eq_error {g : Grammar} (hg : g.WellFormed) (h : ∀ word, g.Language word → word = []) :
    g.reduced.trimmed = .error (.startEliminated (g.nameOf g.start)) := by
  refine trimmed_eq_error hg.reduced fun hs => ?_
  obtain ⟨word, hw⟩ := mem_productive_iff.1 hs
  obtain ⟨hw, hne⟩ := language_reduced_iff.1 hw
  exact hne (h word hw)

/-- A reduced and trimmed grammar loses its left recursion and keeps its words. -/
theorem withoutLeftRecursion_of_trimmed_reduced {g clean : Grammar} (hclean : g.reduced.trimmed = .ok clean) :
    ∃ result, clean.withoutLeftRecursion = .ok result ∧ result.WellFormed ∧ result.leftRecursive = false ∧
      ∀ word, result.Language word ↔ g.Language word ∧ word ≠ [] := by
  have ht := trimmed_eq_ok_iff.1 hclean
  have hne : ∀ nt, [] ∉ clean.productionsOf nt := fun nt hp => g.nil_not_mem_productionsOf_reduced nt (ht.mem_of_mem hp)
  have hresult := withoutLeftRecursion_eq_ok_iff.2 ⟨ht.wellFormed, rfl⟩
  have hordered := ordered_of_withoutLeftRecursion hne hresult
  refine ⟨_, hresult, hordered.wellFormed, hordered.leftRecursive_eq_false, fun word => ?_⟩
  rw [language_of_withoutLeftRecursion hresult, ht.language_iff, language_reduced_iff]

/-! ## The routes -/

/-- A grammar that is fit for top-down search and has the language of another, but for trimming. -/
structure Fit (g h : Grammar) : Prop where
  wellFormed : h.WellFormed
  descends : h.leftRecursive = false
  language : ∀ word, h.Language word ↔ g.Language word

/-- The removal of left recursion succeeds on a well-formed grammar, unless the language is empty. -/
theorem descending_fit {g : Grammar} (hg : g.WellFormed) (hw : ∃ word, g.Language word) :
    ∃ h, g.descending = .ok h ∧ Fit g h := by
  unfold descending
  by_cases hnonempty : ∃ word, g.Language word ∧ word ≠ []
  · obtain ⟨word, hword, hne⟩ := hnonempty
    obtain ⟨clean, hclean⟩ := exists_trimmed_reduced hg hword hne
    obtain ⟨result, hresult, hwf, hleft, hlang⟩ := withoutLeftRecursion_of_trimmed_reduced hclean
    simp only [hclean, hresult, bind, Except.bind, pure, Except.pure]
    refine ⟨_, rfl, ?_⟩
    split
    · rename_i hn
      refine ⟨hwf.withEmptyWord, leftRecursive_withEmptyWord hleft, fun w => ?_⟩
      have hnil := startNullable_iff.1 hn
      rw [language_withEmptyWord_iff, hlang]
      by_cases hw : w = []
      · simp [hw, hnil]
      · simp [hw]
    · rename_i hn
      refine ⟨hwf, hleft, fun w => (hlang w).trans ⟨And.left, fun hw => ⟨hw, ?_⟩⟩⟩
      rintro rfl
      exact hn (startNullable_iff.2 hw)
  · have honly : ∀ word, g.Language word → word = [] := fun word hword =>
      Decidable.byContradiction fun hne => hnonempty ⟨word, hword, hne⟩
    obtain ⟨word, hword⟩ := hw
    have hnil : g.Language [] := honly word hword ▸ hword
    rw [trimmed_reduced_eq_error hg honly]
    refine ⟨_, if_pos ⟨rfl, startNullable_iff.2 hnil⟩, g.wellFormed_onlyEmptyWord, g.leftRecursive_onlyEmptyWord,
      fun w => ?_⟩
    rw [language_onlyEmptyWord_iff]
    exact ⟨fun h => h ▸ hnil, honly w⟩

/-- The removal of left recursion is refused when the language is empty. -/
theorem descending_eq_error {g : Grammar} (hg : g.WellFormed) (hw : ∀ word, ¬g.Language word) :
    g.descending = .error (.startEliminated (g.nameOf g.start)) := by
  unfold descending
  rw [trimmed_reduced_eq_error hg fun word hword => absurd hword (hw word)]
  exact if_neg fun h => hw [] (startNullable_iff.1 h.2)

/-- What the removal of left recursion gives: the grammar of the empty word alone where the reduced grammar cannot be trimmed,
and otherwise what an elimination left, with the empty word brought back if it was in the language. -/
theorem descending_cases {g h : Grammar} (hh : g.descending = .ok h) :
    ((∀ clean, ¬ Trims g.reduced clean) ∧ g.startNullable = true ∧ h = g.onlyEmptyWord) ∨
      ∃ clean result, Trims g.reduced clean ∧ clean.withoutLeftRecursion = .ok result ∧
        h = if g.startNullable then result.withEmptyWord else result := by
  unfold descending at hh
  cases hclean : g.reduced.trimmed with
  | error cause =>
    rw [hclean] at hh
    simp only at hh
    split at hh
    · rename_i hcause
      cases hh
      refine .inl ⟨fun clean ht => ?_, hcause.2, rfl⟩
      rw [trimmed_eq_ok_iff.2 ht] at hclean
      cases hclean
    · cases hh
  | ok clean =>
    cases hresult : clean.withoutLeftRecursion with
    | error cause =>
      simp only [hclean, hresult, bind, Except.bind] at hh
      cases hh
    | ok result =>
      simp only [hclean, hresult, bind, Except.bind, pure, Except.pure] at hh
      cases hh
      exact .inr ⟨clean, result, trimmed_eq_ok_iff.1 hclean, hresult, rfl⟩

/-- Factoring makes a grammar fit that is not left-recursive. -/
theorem factored_fit {g : Grammar} (hg : g.WellFormed) (hleft : g.leftRecursive = false) : Fit g g.factored := by
  refine ⟨hg.factored, g.leftRecursive_factored.trans hleft, fun word => ?_⟩
  rw [language_iff_mem_words, start_factored]
  exact mem_words_factored_iff hg.start

/-- A route leads to a fit grammar, unless the language is empty. -/
theorem follow_fit {g : Grammar} (hg : g.WellFormed) (hw : ∃ word, g.Language word) :
    ∃ h, g.follow g.route = .ok h ∧ Fit g h := by
  unfold route
  cases hleft : g.leftRecursive with
  | true => exact descending_fit hg hw
  | false => exact ⟨g.factored, rfl, factored_fit hg hleft⟩

/-! ## The whole of it -/

/-- A normalization of a well-formed grammar with a word follows the route and trims what it leads to. -/
theorem normalize_eq_ok {g : Grammar} (hg : g.WellFormed) (hw : ∃ word, g.Language word) :
    ∃ h n, Fit g h ∧ Trims h n ∧ g.normalize = .ok ⟨n, g.route⟩ := by
  obtain ⟨h, hfollow, hfit⟩ := follow_fit hg hw
  obtain ⟨word, hword⟩ := hw
  have hproductive : h.start ∈ h.productive := mem_productive_iff.2 ⟨word, (hfit.language word).2 hword⟩
  have ht : Trims h h.onlyProductive.onlyReachable := ⟨rfl, hfit.wellFormed, hproductive⟩
  refine ⟨h, _, hfit, ht, ?_⟩
  unfold normalize
  simp only [validate_eq_ok_iff.2 hg, hfollow, trimmed_eq_ok_iff.2 ht, bind, Except.bind, pure, Except.pure]

/-- A well-formed grammar with an empty language is refused, and its start is named. -/
theorem normalize_eq_error {g : Grammar} (hg : g.WellFormed) (hw : ∀ word, ¬g.Language word) :
    ∃ start, g.normalize = .error (.startEliminated start) := by
  unfold normalize route
  rw [validate_eq_ok_iff.2 hg]
  cases hleft : g.leftRecursive with
  | true =>
    refine ⟨g.nameOf g.start, ?_⟩
    simp [follow, descending_eq_error hg hw, bind, Except.bind]
  | false =>
    have hfit := factored_fit hg hleft
    have hstart : g.factored.start ∉ g.factored.productive := by
      intro hs
      obtain ⟨word, hword⟩ := mem_productive_iff.1 hs
      exact hw word ((hfit.language word).1 hword)
    refine ⟨g.factored.nameOf g.factored.start, ?_⟩
    simp [follow, trimmed_eq_error hfit.wellFormed hstart, bind, Except.bind]

/-- A grammar that is not well-formed is refused for that. -/
theorem normalize_eq_error_of_not_wellFormed {g : Grammar} (hg : ¬g.WellFormed) :
    ∃ cause, g.validate = .error cause ∧ g.normalize = .error cause := by
  obtain ⟨cause, hcause⟩ := validate_eq_error_of_not_wellFormed hg
  refine ⟨cause, hcause, ?_⟩
  unfold normalize
  rw [hcause]
  rfl

/-- A grammar is normalized when it is well-formed and its language is not empty, and not otherwise. -/
theorem exists_normalize_eq_ok_iff {g : Grammar} :
    (∃ n, g.normalize = .ok n) ↔ g.WellFormed ∧ ∃ word, g.Language word := by
  constructor
  · rintro ⟨n, hn⟩
    by_cases hg : g.WellFormed
    · refine ⟨hg, Classical.byContradiction fun hw => ?_⟩
      obtain ⟨start, herr⟩ := normalize_eq_error hg fun word hword => hw ⟨word, hword⟩
      rw [herr] at hn
      cases hn
    · obtain ⟨cause, -, herr⟩ := normalize_eq_error_of_not_wellFormed hg
      rw [herr] at hn
      cases hn
  · rintro ⟨hg, hw⟩
    obtain ⟨h, n, -, -, hn⟩ := normalize_eq_ok hg hw
    exact ⟨_, hn⟩

/-- What a normalization was made of, when it succeeded. -/
theorem exists_fit_of_normalize {g : Grammar} {n : Normalized} (hn : g.normalize = .ok n) :
    ∃ h, Fit g h ∧ Trims h n.grammar := by
  obtain ⟨hg, hw⟩ := exists_normalize_eq_ok_iff.1 ⟨n, hn⟩
  obtain ⟨h, m, hfit, ht, hm⟩ := normalize_eq_ok hg hw
  rw [hm] at hn
  cases hn
  exact ⟨h, hfit, ht⟩

/-- A normalization that succeeded followed the route of the grammar and trimmed what it led to. -/
theorem exists_follow_of_normalize {g : Grammar} {n : Normalized} (hn : g.normalize = .ok n) :
    n.route = g.route ∧ ∃ h, g.follow n.route = .ok h ∧ Trims h n.grammar := by
  unfold normalize at hn
  cases hv : g.validate with
  | error cause =>
    rw [hv] at hn
    cases hn
  | ok _ =>
    cases hfollow : g.follow g.route with
    | error cause =>
      simp only [hv, hfollow, bind, Except.bind] at hn
      cases hn
    | ok h =>
      cases htrimmed : h.trimmed with
      | error cause =>
        simp only [hv, hfollow, htrimmed, bind, Except.bind] at hn
        cases hn
      | ok m =>
        simp only [hv, hfollow, htrimmed, bind, Except.bind, pure, Except.pure] at hn
        cases hn
        exact ⟨rfl, h, hfollow, trimmed_eq_ok_iff.1 htrimmed⟩

/-- A normalized grammar has the language of the grammar that it was made from, the empty word included. -/
theorem language_normalize {g : Grammar} {n : Normalized} (hn : g.normalize = .ok n) (word : List Char) :
    n.grammar.Language word ↔ g.Language word := by
  obtain ⟨h, hfit, ht⟩ := exists_fit_of_normalize hn
  exact ht.language_iff.trans (hfit.language word)

/-- Runs of one letter, left-recursive and with the empty word. -/
def runs : Grammar := ⟨0, .ofList [(0, [[.nonterminal 0, .terminal 'a'], []])], .ofList [(0, "S")]⟩

/-- A normalized grammar is well-formed and not left-recursive, and everything that it declares is productive and reachable. -/
theorem normalize_safe {g : Grammar} {n : Normalized} (hn : g.normalize = .ok n) :
    n.grammar.validate = .ok () ∧ n.grammar.leftRecursive = false ∧
      ∀ nt ∈ n.grammar.declared, nt ∈ n.grammar.productive ∧ nt ∈ n.grammar.reachable := by
  obtain ⟨h, hfit, ht⟩ := exists_fit_of_normalize hn
  exact ⟨validate_eq_ok_iff.2 ht.wellFormed, ht.leftRecursive_eq_false hfit.descends, fun _ hd => ht.useful hd⟩

end Grammar

end TopDown
