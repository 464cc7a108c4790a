import TopDown.Proofs.Layers
import TopDown.Proofs.WellFormed
import TopDown.Proofs.Words
import TopDown.Trimming

/-!
# Trimming, judged

The productive nonterminals are exactly those that generate a word, and the reachable ones those that mentions lead to from the
start. A trimmed grammar is well-formed, everything that it declares is productive and reachable in it, and generates what it
did before. Reachability is judged once, after the unproductive nonterminals are gone, and that is enough: then every production
that is left stands in a derivation of a word from the start, and no other does.

Main statements: `trimmed_eq_ok_iff`, `trimmed_eq_error`, `Trims.words_iff`, `Trims.useful` and `trimmed_exact`.
-/

namespace TopDown.Grammar

open Production (reading)

/-! ## Productive nonterminals -/

/-- The productive nonterminals generate some word. -/
theorem exists_mem_words_of_mem_productive {g : Grammar} : ∀ nt ∈ g.productive, ∃ word, word ∈ g.words nt := by
  refine saturate_induction fun c hc hbody => ?_
  obtain ⟨⟨nt, p⟩, hp, rfl⟩ := List.mem_map.1 hc
  obtain ⟨word, hw⟩ := Production.exists_mem_reading (L := g.words) fun m hm =>
    hbody m (Production.mem_nonterminals.2 hm)
  exact ⟨word, words_closed g nt p (Rules.mem_productions.1 hp) word hw⟩

/-- The productive nonterminals are those that generate some word. -/
theorem mem_productive_iff {g : Grammar} {nt : Nonterminal} : nt ∈ g.productive ↔ ∃ word, word ∈ g.words nt := by
  refine ⟨exists_mem_words_of_mem_productive nt, ?_⟩
  rintro ⟨word, hw⟩
  have hL : g.Closed fun nt => {word | nt ∈ g.productive} := by
    intro m p hp w hword
    have hc : (⟨m, Production.nonterminals p⟩ : Clause Nonterminal) ∈
        g.rules.productions.map fun rule => ⟨rule.1, Production.nonterminals rule.2⟩ :=
      List.mem_map.2 ⟨(m, p), Rules.mem_productions.2 hp, rfl⟩
    refine mem_saturate hc fun k hk => ?_
    obtain ⟨_, hk⟩ := Production.nonempty_of_mem_reading hword k (Production.mem_nonterminals.1 hk)
    exact hk
  exact words_le hL hw

/-- A productive nonterminal is declared. -/
theorem declared_of_mem_productive {g : Grammar} {nt : Nonterminal} (h : nt ∈ g.productive) : nt ∈ g.declared := by
  obtain ⟨word, hw⟩ := mem_productive_iff.1 h
  obtain ⟨p, hp, -⟩ := mem_words_iff.1 hw
  exact declared_of_mem_productionsOf hp

/-- Every nonterminal of a production is in the list. -/
theorem isWithin_iff {nts : List Nonterminal} {p : Production} :
    Production.isWithin nts p = true ↔ ∀ m, .nonterminal m ∈ p → m ∈ nts := by
  rw [Production.isWithin, List.all_eq_true]
  simp only [Production.mem_nonterminals, List.contains_iff_mem]

/-! ## Reachable nonterminals -/

/-- A production leads to the nonterminals that it mentions. -/
theorem mem_mentionsOf {g : Grammar} {nt m : Nonterminal} :
    m ∈ g.mentionsOf nt ↔ ∃ p ∈ g.productionsOf nt, .nonterminal m ∈ p := by
  rw [mentionsOf, List.mem_flatMap]
  simp only [Production.mem_nonterminals]

/-- What mentions something is declared. -/
theorem declared_of_mentionsOf_ne_nil (g : Grammar) : ∀ nt, g.mentionsOf nt ≠ [] → nt ∈ g.declared := by
  intro nt h
  obtain ⟨m, hm⟩ := List.exists_mem_of_ne_nil _ h
  obtain ⟨p, hp, -⟩ := mem_mentionsOf.1 hm
  exact declared_of_mem_productionsOf hp

/-- The reachable nonterminals are those that mentions lead to from the start. -/
theorem mem_reachable_iff {g : Grammar} {nt : Nonterminal} : nt ∈ g.reachable ↔ Reaches g.mentionsOf g.start nt :=
  mem_closure_iff g.declared_of_mentionsOf_ne_nil g.length_declared_le_size

/-! ## What the two parts of trimming do -/

/-- Keeping some nonterminals keeps their productions. -/
theorem productionsOf_filter {g h : Grammar} {keep : Nonterminal → Bool} (hh : h.rules = g.rules.filter keep)
    (nt : Nonterminal) : h.productionsOf nt = if keep nt then g.productionsOf nt else [] := by
  rw [productionsOf, Rules.productionsOf, hh, Rules.get?_filter]
  split <;> rfl

/-- Keeping some alternatives everywhere keeps these productions of every nonterminal. -/
theorem productionsOf_map_filter {g h : Grammar} {keep : Production → Bool}
    (hh : h.rules = g.rules.map fun _ a => a.filter keep) (nt : Nonterminal) :
    h.productionsOf nt = (g.productionsOf nt).filter keep := by
  rw [productionsOf, Rules.productionsOf, hh, Rules.get?_map, productionsOf, Rules.productionsOf]
  cases g.rules.get? nt <;> rfl

theorem declared_filter (r : Rules) (keep : Nonterminal → Bool) : (r.filter keep).declared = r.declared.filter keep := by
  rw [Rules.declared, Rules.filter, Rules.declared, List.filter_map]
  rfl

/-- The productions without unproductive nonterminals. -/
theorem productionsOf_onlyProductive (g : Grammar) (nt : Nonterminal) :
    g.onlyProductive.productionsOf nt =
      if g.productive.contains nt then (g.productionsOf nt).filter (Production.isWithin g.productive) else [] := by
  have hmap : g.onlyProductive.rules =
      ({ g with rules := g.rules.filter fun nt => g.productive.contains nt } : Grammar).rules.map
        fun _ a => a.filter (Production.isWithin g.productive) := rfl
  rw [productionsOf_map_filter hmap nt, productionsOf_filter (g := g) rfl nt]
  split <;> rfl

/-- A production stays when it mentions productive nonterminals only; its own nonterminal is then productive too. -/
theorem mem_productionsOf_onlyProductive {g : Grammar} {nt : Nonterminal} {p : Production} :
    p ∈ g.onlyProductive.productionsOf nt ↔ p ∈ g.productionsOf nt ∧ ∀ m, .nonterminal m ∈ p → m ∈ g.productive := by
  rw [productionsOf_onlyProductive]
  constructor
  · intro h
    split at h
    · obtain ⟨hp, hw⟩ := List.mem_filter.1 h
      exact ⟨hp, isWithin_iff.1 hw⟩
    · exact nomatch h
  · rintro ⟨hp, hw⟩
    have hnt : nt ∈ g.productive := by
      obtain ⟨word, hr⟩ := Production.exists_mem_reading (L := g.words) fun m hm => mem_productive_iff.1 (hw m hm)
      exact mem_productive_iff.2 ⟨word, words_closed g nt p hp word hr⟩
    rw [if_pos (List.contains_iff_mem.2 hnt)]
    exact List.mem_filter.2 ⟨hp, isWithin_iff.2 hw⟩

/-- The productive nonterminals stay declared, in the order that they had. -/
theorem declared_onlyProductive (g : Grammar) :
    g.onlyProductive.declared = g.declared.filter fun nt => g.productive.contains nt :=
  (Rules.declared_map _ _).trans (declared_filter _ _)

/-- The productive nonterminals stay declared. -/
theorem mem_declared_onlyProductive {g : Grammar} {nt : Nonterminal} :
    nt ∈ g.onlyProductive.declared ↔ nt ∈ g.productive := by
  rw [declared_onlyProductive, List.mem_filter, List.contains_iff_mem]
  exact ⟨And.right, fun h => ⟨declared_of_mem_productive h, h⟩⟩

/-! ## Trimming -/

/-- The grammar without its useless nonterminals and productions. -/
def Trims (g h : Grammar) : Prop := h = g.onlyProductive.onlyReachable ∧ g.WellFormed ∧ g.start ∈ g.productive

/-- Trimming succeeds on the well-formed grammars whose start generates a word. -/
theorem trimmed_eq_ok_iff {g h : Grammar} : g.trimmed = .ok h ↔ Trims g h := by
  unfold trimmed Trims
  rw [← validate_eq_ok_iff]
  cases g.validate with
  | error cause => simp [bind, Except.bind]
  | ok _ =>
    by_cases hs : g.start ∈ g.productive
    · simp [bind, Except.bind, pure, Except.pure, hs, eq_comm]
    · simp [bind, Except.bind, throw, throwThe, MonadExceptOf.throw, hs]

/-- A well-formed grammar whose start generates no word is refused for that. -/
theorem trimmed_eq_error {g : Grammar} (hg : g.WellFormed) (hs : g.start ∉ g.productive) :
    g.trimmed = .error (.startEliminated (g.nameOf g.start)) := by
  unfold trimmed
  rw [validate_eq_ok_iff.2 hg]
  simp [bind, Except.bind, throw, throwThe, MonadExceptOf.throw, hs]

namespace Trims

variable {g h : Grammar}

theorem start_eq (ht : Trims g h) : h.start = g.start := by
  rw [ht.1]
  rfl

/-- The productions that stay: those of reachable nonterminals that mention productive ones only. -/
theorem mem_productionsOf_iff (ht : Trims g h) {nt : Nonterminal} {p : Production} :
    p ∈ h.productionsOf nt ↔ p ∈ g.onlyProductive.productionsOf nt ∧ nt ∈ g.onlyProductive.reachable := by
  rw [ht.1, productionsOf_filter (g := g.onlyProductive) rfl nt]
  by_cases hr : nt ∈ g.onlyProductive.reachable
  · simp [hr]
  · simp [hr]

theorem mem_of_mem (ht : Trims g h) {nt : Nonterminal} {p : Production} (hp : p ∈ h.productionsOf nt) :
    p ∈ g.productionsOf nt :=
  (mem_productionsOf_onlyProductive.1 (ht.mem_productionsOf_iff.1 hp).1).1

/-- What is left of the productions of a nonterminal stands in the same order. -/
theorem productionsOf_sublist (ht : Trims g h) (nt : Nonterminal) : (h.productionsOf nt).Sublist (g.productionsOf nt) := by
  rw [ht.1, productionsOf_filter (g := g.onlyProductive) rfl nt, productionsOf_onlyProductive]
  split
  · split
    · exact List.filter_sublist
    · exact List.nil_sublist _
  · exact List.nil_sublist _

/-- Without the unproductive nonterminals, the reachable ones stay declared. -/
theorem declared_eq (ht : Trims g h) :
    h.declared = g.onlyProductive.declared.filter fun nt => g.onlyProductive.reachable.contains nt := by
  rw [ht.1]
  exact declared_filter _ _

/-- The nonterminals that stay are those that are productive and, without the unproductive ones, reachable. -/
theorem mem_declared_iff (ht : Trims g h) {nt : Nonterminal} :
    nt ∈ h.declared ↔ nt ∈ g.productive ∧ nt ∈ g.onlyProductive.reachable := by
  rw [ht.declared_eq, List.mem_filter, mem_declared_onlyProductive, List.contains_iff_mem]

theorem declared_sublist (ht : Trims g h) : h.declared.Sublist g.declared := by
  rw [ht.declared_eq, declared_onlyProductive]
  exact List.filter_sublist.trans List.filter_sublist

/-- What a reachable nonterminal mentions is reachable. -/
theorem reachable_of_mention {nt m : Nonterminal} {p : Production} (hr : nt ∈ g.reachable) (hp : p ∈ g.productionsOf nt)
    (hm : .nonterminal m ∈ p) : m ∈ g.reachable :=
  mem_reachable_iff.2 (Relation.ReflTransGen.tail (mem_reachable_iff.1 hr) (mem_mentionsOf.2 ⟨p, hp, hm⟩))

/-- A trimmed grammar is well-formed. -/
theorem wellFormed (ht : Trims g h) : h.WellFormed := by
  refine ⟨?_, fun nt p hp m hm => ?_⟩
  · rw [ht.start_eq]
    exact ht.mem_declared_iff.2 ⟨ht.2.2, mem_reachable_iff.2 Relation.ReflTransGen.refl⟩
  · obtain ⟨hp, hr⟩ := ht.mem_productionsOf_iff.1 hp
    have hm' := (mem_productionsOf_onlyProductive.1 hp).2 m hm
    exact ht.mem_declared_iff.2 ⟨hm', reachable_of_mention hr hp hm⟩

/-- Every nonterminal that stays generates what it did. -/
theorem words_iff (ht : Trims g h) {nt : Nonterminal} (hd : nt ∈ h.declared) {word : List Char} :
    word ∈ h.words nt ↔ word ∈ g.words nt := by
  constructor
  · exact words_mono fun m p hp => ht.mem_of_mem hp
  · intro hw
    -- a word makes its nonterminal productive; where the nonterminal is reachable as well, nothing is lost
    have hL : g.Closed fun m => {w | m ∈ g.productive ∧ (m ∈ g.onlyProductive.reachable → w ∈ h.words m)} := by
      intro m p hp w hw
      have hprod : ∀ k, .nonterminal k ∈ p → k ∈ g.productive := by
        intro k hk
        obtain ⟨_, hk⟩ := Production.nonempty_of_mem_reading hw k hk
        exact hk.1
      have hp' := mem_productionsOf_onlyProductive.2 ⟨hp, hprod⟩
      refine ⟨?_, fun hr => ?_⟩
      · exact mem_declared_onlyProductive.1 (declared_of_mem_productionsOf hp')
      · refine words_closed h m p (ht.mem_productionsOf_iff.2 ⟨hp', hr⟩) w ?_
        exact Production.reading_mono (fun k hk u hu => hu.2 (reachable_of_mention hr hp' hk)) w hw
    exact (words_le hL hw).2 (ht.mem_declared_iff.1 hd).2

theorem language_iff (ht : Trims g h) {word : List Char} : h.Language word ↔ g.Language word := by
  rw [language_iff_mem_words, language_iff_mem_words, ht.words_iff ht.wellFormed.start, ht.start_eq]

/-- Everything that a trimmed grammar declares is productive and reachable in it. -/
theorem useful (ht : Trims g h) {nt : Nonterminal} (hd : nt ∈ h.declared) : nt ∈ h.productive ∧ nt ∈ h.reachable := by
  obtain ⟨hp, hr⟩ := ht.mem_declared_iff.1 hd
  constructor
  · obtain ⟨word, hw⟩ := mem_productive_iff.1 hp
    exact mem_productive_iff.2 ⟨word, (ht.words_iff hd).2 hw⟩
  · have hway : ∀ m, Reaches g.onlyProductive.mentionsOf g.start m → Reaches h.mentionsOf h.start m := by
      intro m hm
      induction hm with
      | refl => exact ht.start_eq ▸ Relation.ReflTransGen.refl
      | tail hk hstep ih =>
        obtain ⟨p, hp, hmp⟩ := mem_mentionsOf.1 hstep
        have hp' := ht.mem_productionsOf_iff.2 ⟨hp, mem_reachable_iff.2 hk⟩
        exact Relation.ReflTransGen.tail ih (mem_mentionsOf.2 ⟨p, hp', hmp⟩)
    exact mem_reachable_iff.2 (hway nt (mem_reachable_iff.1 hr))

end Trims

/-! ## Useful productions -/

/-- A production is used for a word of the language: the start derives its nonterminal in some context, and with the production in
place of the nonterminal derives a word. -/
def Uses (g : Grammar) (nt : Nonterminal) (p : Production) : Prop :=
  p ∈ g.productionsOf nt ∧ ∃ before after word, g.Derives [.nonterminal g.start] (before ++ .nonterminal nt :: after) ∧
    g.Derives (before ++ p ++ after) (Production.ofWord word)

/-- A list of symbols derives a word when all its nonterminals are productive. -/
theorem exists_derives_ofWord_iff {g : Grammar} {form : List Symbol} :
    (∃ word, g.Derives form (Production.ofWord word)) ↔ ∀ m, .nonterminal m ∈ form → m ∈ g.productive := by
  simp only [derives_ofWord_iff, mem_productive_iff]
  constructor
  · intro h
    obtain ⟨word, hw⟩ := h
    exact Production.nonempty_of_mem_reading hw
  · exact Production.exists_mem_reading

/-- On the way from the start to a word every nonterminal is reached without the unproductive ones: the productions of the steps
still derive a word each. -/
theorem reaches_of_derives {g : Grammar} {form : List Symbol} {word : List Char} (h : g.Derives [.nonterminal g.start] form)
    (hw : g.Derives form (Production.ofWord word)) :
    ∀ m, .nonterminal m ∈ form → Reaches g.onlyProductive.mentionsOf g.start m := by
  induction h with
  | refl =>
    intro m hm
    cases List.mem_singleton.1 hm
    exact Relation.ReflTransGen.refl
  | tail _ hs ih =>
    have ih := ih (Derives.head hs hw)
    have hform := exists_derives_ofWord_iff.1 ⟨word, hw⟩
    cases hs with
    | @expand before after nt p hp =>
      have hp : p ∈ g.onlyProductive.productionsOf nt :=
        mem_productionsOf_onlyProductive.2 ⟨hp, fun m hm => hform m (by simp [hm])⟩
      intro m hm
      rw [List.mem_append, List.mem_append] at hm
      rcases hm with (hm | hm) | hm
      · exact ih m (by simp [hm])
      · exact (ih nt (by simp)).tail (mem_mentionsOf.2 ⟨p, hp, hm⟩)
      · exact ih m (by simp [hm])

/-- What is reached without the unproductive nonterminals is derived in a context where everything is productive: the productions
on the way bring nothing else. -/
theorem exists_derives_of_reaches {g : Grammar} (hs : g.start ∈ g.productive) {nt : Nonterminal}
    (h : Reaches g.onlyProductive.mentionsOf g.start nt) :
    ∃ before after, g.Derives [.nonterminal g.start] (before ++ .nonterminal nt :: after) ∧
      ∀ m, .nonterminal m ∈ before ++ .nonterminal nt :: after → m ∈ g.productive := by
  induction h with
  | refl =>
    refine ⟨[], [], Derives.refl _, fun m hm => ?_⟩
    cases List.mem_singleton.1 hm
    exact hs
  | tail _ hstep ih =>
    obtain ⟨before, after, hd, hcontext⟩ := ih
    obtain ⟨p, hp, hm⟩ := mem_mentionsOf.1 hstep
    obtain ⟨hp, hbody⟩ := mem_productionsOf_onlyProductive.1 hp
    have hd := hd.tail (Step.expand before after hp)
    obtain ⟨left, right, rfl⟩ := List.append_of_mem hm
    refine ⟨before ++ left, right ++ after, by simpa using hd, fun k hk => ?_⟩
    grind

namespace Trims

variable {g h : Grammar}

/-- The productions that stay are those used for a word of the language. -/
theorem mem_productionsOf_iff_uses (ht : Trims g h) {nt : Nonterminal} {p : Production} :
    p ∈ h.productionsOf nt ↔ g.Uses nt p := by
  rw [ht.mem_productionsOf_iff, mem_productionsOf_onlyProductive, mem_reachable_iff]
  constructor
  · intro hp
    obtain ⟨⟨hp, hbody⟩, hr⟩ := hp
    obtain ⟨before, after, hd, hcontext⟩ := exists_derives_of_reaches ht.2.2 hr
    have hform : ∀ m, .nonterminal m ∈ before ++ p ++ after → m ∈ g.productive := by grind
    obtain ⟨word, hw⟩ := exists_derives_ofWord_iff.2 hform
    exact ⟨hp, before, after, word, hd, hw⟩
  · intro hu
    obtain ⟨hp, before, after, word, hd, hw⟩ := hu
    have hform := exists_derives_ofWord_iff.1 ⟨word, hw⟩
    have hr := reaches_of_derives hd (Derives.head (Step.expand before after hp) hw) nt (by simp)
    exact ⟨⟨hp, fun m hm => hform m (by simp [hm])⟩, hr⟩

/-- The nonterminals that stay are those with a production used for a word of the language. -/
theorem mem_declared_iff_uses (ht : Trims g h) {nt : Nonterminal} : nt ∈ h.declared ↔ ∃ p, g.Uses nt p := by
  simp only [← ht.mem_productionsOf_iff_uses]
  constructor
  · intro hd
    obtain ⟨word, hw⟩ := mem_productive_iff.1 (ht.useful hd).1
    obtain ⟨p, hp, -⟩ := mem_words_iff.1 hw
    exact ⟨p, hp⟩
  · intro hd
    obtain ⟨p, hp⟩ := hd
    exact declared_of_mem_productionsOf hp

end Trims

/-- Trimming leaves the productions that are used for a word of the language, and of the nonterminals those that have one, all in
the order that they had. Every nonterminal that stays derives the words that it did. -/
theorem trimmed_exact {g h : Grammar} (hh : g.trimmed = .ok h) :
    (∀ nt p, p ∈ h.productionsOf nt ↔ g.Uses nt p) ∧
    (∀ nt, nt ∈ h.declared ↔ ∃ p, g.Uses nt p) ∧
    (h.declared.Sublist g.declared ∧ ∀ nt, (h.productionsOf nt).Sublist (g.productionsOf nt)) ∧
    ∀ nt ∈ h.declared, ∀ word, h.Generates nt word ↔ g.Generates nt word := by
  have ht := trimmed_eq_ok_iff.1 hh
  exact ⟨fun _ _ => ht.mem_productionsOf_iff_uses, fun _ => ht.mem_declared_iff_uses,
    ⟨ht.declared_sublist, ht.productionsOf_sublist⟩, fun _ hd _ => ht.words_iff hd⟩

/-- A nonterminal that generates no word next to one that does, in the only production that mentions either from the start. -/
def stranding : Grammar where
  start := 0
  rules := .ofList [
    (0, [[.nonterminal 1, .nonterminal 2], [.terminal 'a', .nonterminal 3], [.terminal 'a']]),
    (1, [[.nonterminal 1, .terminal 'b']]),
    (2, [[.terminal 'b'], [.terminal 'c']]),
    (3, [[.nonterminal 0]])]
  names := .empty

/-- The nonterminal that generates words is stranded with its neighbour, so no production of it is used; what the start needs
elsewhere stays. -/
theorem trimmed_exact_stranding : 2 ∈ stranding.productive ∧ ∃ h, stranding.trimmed = .ok h ∧ h.declared = [0, 3] ∧
    stranding.Uses 0 [.terminal 'a', .nonterminal 3] ∧ ∀ p, ¬stranding.Uses 2 p := by
  have hdeclared : stranding.onlyProductive.onlyReachable.declared = [0, 3] := by decide
  obtain ⟨huses, hleft, -, -⟩ := trimmed_exact (g := stranding) rfl
  refine ⟨by decide, _, rfl, hdeclared, (huses 0 _).1 (by decide), fun p hp => ?_⟩
  have hd := (hleft 2).2 ⟨p, hp⟩
  rw [hdeclared] at hd
  simp at hd

end TopDown.Grammar
