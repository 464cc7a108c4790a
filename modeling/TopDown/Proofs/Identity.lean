import TopDown.Proofs.Factored
import TopDown.Proofs.Naming

/-!
# Nonterminals keep their identity

The stages of a normalization give up some nonterminals and introduce others. Whatever has a name keeps it, also when it is no
longer declared, and a fresh nonterminal comes after everything that has a name. So no number that once had a name is given out
again: a nonterminal that has a name at the beginning and is declared at the end was declared all the way, and it means what it
meant, since every stage keeps the words of what stays. What is new has the name of one that there was at the beginning, with
apostrophes behind it.

Main statements: `Inherits.normalize`, `mem_words_of_normalize` and `normalize_identity`.
-/

namespace TopDown

/-- A name from a table, with apostrophes behind it or without. -/
def Names.Primed (n : Names) (name : String) : Prop :=
  ∃ origin base k, n.get? origin = some base ∧ name = base ++ String.ofList (List.replicate k '\'')

/-- One apostrophe more can be put behind a name. -/
theorem Names.Primed.push {n : Names} {name : String} (h : n.Primed name) : n.Primed (name.push '\'') := by
  obtain ⟨origin, base, k, hbase, rfl⟩ := h
  refine ⟨origin, base, k + 1, hbase, String.toList_inj.1 ?_⟩
  simp [String.toList_push, List.replicate_succ']

namespace Grammar

/-! ## What stages hand down -/

/-- A grammar that was made from another without mistaking one nonterminal for another: whatever had a name still has it, and
what is declared now was declared before or had no name. -/
structure Inherits (g h : Grammar) : Prop where
  name : ∀ nt name, g.names.get? nt = some name → h.names.get? nt = some name
  declared : ∀ nt ∈ h.declared, nt ∈ g.declared ∨ g.names.get? nt = none

namespace Inherits

variable {g h k : Grammar}

theorem refl (g : Grammar) : Inherits g g := ⟨fun _ _ hname => hname, fun _ hnt => .inl hnt⟩

theorem trans (hgh : Inherits g h) (hhk : Inherits h k) : Inherits g k := by
  refine ⟨fun nt name hname => hhk.name nt name (hgh.name nt name hname), fun nt hnt => ?_⟩
  rcases hhk.declared nt hnt with hnt | hnone
  · exact hgh.declared nt hnt
  · right
    cases hname : g.names.get? nt with
    | none => rfl
    | some name =>
      rw [hgh.name nt name hname] at hnone
      cases hnone

/-- Declaring less under the same names hands everything down. -/
theorem of_declared (hnames : h.names = g.names) (hdeclared : ∀ nt ∈ h.declared, nt ∈ g.declared) : Inherits g h :=
  ⟨fun _ _ hname => hnames ▸ hname, fun nt hnt => .inl (hdeclared nt hnt)⟩

/-- A nonterminal that had a name and is still declared was declared before. -/
theorem declared_of_named (hgh : Inherits g h) {nt : Nonterminal} {name : String} (hname : g.names.get? nt = some name)
    (hnt : nt ∈ h.declared) : nt ∈ g.declared := by
  refine (hgh.declared nt hnt).resolve_right fun hnone => ?_
  rw [hname] at hnone
  cases hnone

/-! ## Edits -/

/-- A declared nonterminal can be given other productions. -/
theorem setProductions {nt : Nonterminal} (hnt : nt ∈ g.declared) (ps : List Production) :
    Inherits g (g.setProductions nt ps) := by
  refine of_declared rfl fun m hm => ?_
  rcases mem_declared_setProductions.1 hm with rfl | hm
  · exact hnt
  · exact hm

/-- A fresh nonterminal had no name and takes none away. -/
theorem addFresh (g : Grammar) (origin : Nonterminal) (ps : List Production) : Inherits g (g.addFresh origin ps) := by
  refine ⟨fun nt name hname => ?_, fun nt hnt => ?_⟩
  · rw [names_addFresh, if_neg (ne_freshNonterminal_of_named hname)]
    exact hname
  · rcases mem_declared_addFresh.1 hnt with rfl | hnt
    · right
      cases hname : g.names.get? g.freshNonterminal with
      | none => rfl
      | some name => exact absurd rfl (ne_freshNonterminal_of_named hname)
    · exact .inl hnt

/-! ## Stages without fresh nonterminals -/

theorem reduced (g : Grammar) : Inherits g g.reduced := by
  refine of_declared rfl fun nt hnt => ?_
  rwa [Grammar.reduced, declared_withoutUnits, declared_withoutEmpty] at hnt

theorem trims (ht : Trims g h) : Inherits g h := by
  refine of_declared (by rw [ht.1]; rfl) fun nt hnt => ?_
  exact declared_of_mem_productive (ht.mem_declared_iff.1 hnt).1

/-- The grammar of the empty word alone gives up all but the start. -/
theorem onlyEmptyWord (hg : g.WellFormed) : Inherits g g.onlyEmptyWord := by
  refine of_declared rfl fun nt hnt => ?_
  rw [declared_onlyEmptyWord, List.mem_singleton] at hnt
  exact hnt ▸ hg.start

/-! ## Stages with fresh nonterminals -/

theorem withEmptyWord (g : Grammar) : Inherits g g.withEmptyWord := by
  have hfresh := Inherits.addFresh g g.start [[.nonterminal g.start], []]
  exact ⟨hfresh.name, hfresh.declared⟩

/-- A tail is new. -/
theorem removeDirect {e : Elimination} {nt : Nonterminal} (hnt : nt ∈ e.grammar.declared) :
    Inherits e.grammar (e.removeDirect nt).grammar := by
  unfold Elimination.removeDirect
  by_cases ht : e.grammar.recursiveTailsOf nt = []
  · simp only [ht, List.isEmpty_nil, if_pos]
    exact setProductions hnt _
  · simp only [List.isEmpty_iff, if_neg ht]
    exact (addFresh e.grammar nt _).trans (setProductions (mem_declared_addFresh.2 (.inr hnt)) _)

/-- What a step of an elimination introduces is new. -/
theorem eliminationTake {e : Elimination} {nt : Nonterminal} (hnt : nt ∈ e.grammar.declared) (earlier : List Nonterminal) :
    Inherits e.grammar (e.take earlier nt).grammar := by
  have hsubstituted : Inherits e.grammar (e.grammar.substituted earlier nt) := setProductions hnt _
  have hdirect : Inherits (e.grammar.substituted earlier nt) (e.take earlier nt).grammar :=
    removeDirect (e := { e with grammar := e.grammar.substituted earlier nt }) (mem_declared_setProductions.2 (.inl rfl))
  exact hsubstituted.trans hdirect

/-- What an elimination introduces is new. -/
theorem eliminationRun {e : Elimination} {nts : List Nonterminal} (hnts : ∀ nt ∈ nts, nt ∈ e.grammar.declared)
    (earlier : List Nonterminal) : Inherits e.grammar (e.run earlier nts).grammar := by
  induction nts generalizing e earlier with
  | nil => exact refl e.grammar
  | cons nt nts ih =>
    obtain ⟨hnt, hnts⟩ := List.forall_mem_cons.1 hnts
    have hrest := ih (e := e.take earlier nt) (fun m hm => Elimination.declared_take (hnts m hm)) (earlier ++ [nt])
    exact (eliminationTake hnt earlier).trans hrest

/-- What the elimination of left recursion introduces is new. -/
theorem withoutLeftRecursion (hh : g.withoutLeftRecursion = .ok h) : Inherits g h := by
  obtain ⟨-, rfl⟩ := withoutLeftRecursion_eq_ok_iff.1 hh
  exact eliminationRun (e := ⟨g, []⟩) (fun nt hnt => mem_distanceOrder.1 hnt) []

/-- What is introduced for the parts of a nonterminal's productions is new. -/
theorem place (nt : Nonterminal) (parts : List Part) (s : Factoring) :
    Inherits s.grammar (Factoring.place nt parts s).1.grammar := by
  induction parts generalizing s with
  | nil => exact refl s.grammar
  | cons part parts ih =>
    cases part with
    | alone p => exact ih s
    | shared stem remainders => exact (addFresh s.grammar nt remainders).trans (ih (s.introduce nt remainders))

/-- What a step of a factoring introduces is new. -/
theorem factoringTake {s : Factoring} {nt : Nonterminal} (hnt : nt ∈ s.grammar.declared) :
    Inherits s.grammar (s.take nt).grammar := by
  have hplaced := place nt (Part.ofProductions (s.grammar.productionsOf nt)) s
  have hdeclared := (Factoring.placed_place nt (Part.ofProductions (s.grammar.productionsOf nt)) s).declared nt hnt
  exact hplaced.trans (setProductions hdeclared _)

/-- What a factoring introduces is new. -/
theorem factoringRun {s : Factoring} (hs : Awaits s.grammar s.pending) (fuel : Nat) :
    Inherits s.grammar (Factoring.run fuel s).grammar := by
  induction fuel generalizing s with
  | zero => exact refl s.grammar
  | succ fuel ih =>
    unfold Factoring.run
    cases hpending : s.pending with
    | nil => exact refl s.grammar
    | cons nt rest =>
      rw [hpending] at hs
      have htake : Inherits s.grammar (Factoring.take { s with pending := rest } nt).grammar :=
        factoringTake (s := { s with pending := rest }) (hs.declared nt List.mem_cons_self)
      exact htake.trans (ih (Factoring.awaits_take (s := { s with pending := rest }) hs).1)

/-- What factoring introduces is new. -/
theorem factored (g : Grammar) : Inherits g g.factored := factoringRun (s := ⟨g, g.declared, 0⟩) g.awaits_declared g.extent

/-! ## The whole of it -/

/-- What the removal of left recursion introduces is new. -/
theorem descending (hg : g.WellFormed) (hh : g.descending = .ok h) : Inherits g h := by
  rcases descending_cases hh with ⟨-, -, rfl⟩ | ⟨clean, result, ht, hresult, rfl⟩
  · exact onlyEmptyWord hg
  · have hresult := ((reduced g).trans (trims ht)).trans (withoutLeftRecursion hresult)
    split
    · exact hresult.trans (withEmptyWord result)
    · exact hresult

/-- What a normalization introduces is new. -/
theorem normalize {n : Normalized} (hn : g.normalize = .ok n) : Inherits g n.grammar := by
  have hg := (exists_normalize_eq_ok_iff.1 ⟨n, hn⟩).1
  obtain ⟨-, followed, hfollow, ht⟩ := exists_follow_of_normalize hn
  refine Inherits.trans ?_ (trims ht)
  cases hroute : n.route with
  | leftRecursionRemoval =>
    rw [hroute] at hfollow
    exact descending hg hfollow
  | leftFactoring =>
    rw [hroute] at hfollow
    cases hfollow
    exact factored g

end Inherits

/-! ## What nonterminals mean -/

/-- A nonterminal that has a name and is still declared when left recursion is removed generates what it did, but for the empty
word. -/
theorem mem_words_of_descending {g h : Grammar} (hg : g.WellFormed) (hh : g.descending = .ok h) {nt : Nonterminal}
    {name : String} (hname : g.names.get? nt = some name) (hnt : nt ∈ h.declared) {word : List Char} (hne : word ≠ []) :
    word ∈ h.words nt ↔ word ∈ g.words nt := by
  rcases descending_cases hh with ⟨hclean, -, rfl⟩ | ⟨clean, result, ht, hresult, rfl⟩
  · rw [declared_onlyEmptyWord, List.mem_singleton] at hnt
    subst hnt
    refine iff_of_false (fun hw => hne (language_onlyEmptyWord_iff.1 hw)) fun hw => ?_
    obtain ⟨clean, ht⟩ := exists_trimmed_reduced hg hw hne
    exact hclean clean (trimmed_eq_ok_iff.1 ht)
  · have hinherits := (Inherits.reduced g).trans (Inherits.trims ht)
    have hresultInherits := Inherits.withoutLeftRecursion hresult
    have hcleanName := hinherits.name nt name hname
    have hresultName := hresultInherits.name nt name hcleanName
    have hold : nt ∈ result.declared → (word ∈ result.words nt ↔ word ∈ g.words nt) := by
      intro hd
      have hclean := hresultInherits.declared_of_named hcleanName hd
      rw [(mem_words_of_withoutLeftRecursion hresult hclean).2 word, ht.words_iff hclean, mem_words_reduced_iff]
      exact and_iff_left hne
    split at hnt
    · rename_i hnullable
      rw [if_pos hnullable, mem_words_iff_of_unmentioned (fun _ hm => productionsOf_withEmptyWord_of_ne hm)
        freshNonterminal_not_mem (ne_freshNonterminal_of_named hresultName)]
      exact hold ((Inherits.withEmptyWord result).declared_of_named hresultName hnt)
    · rename_i hnullable
      rw [if_neg hnullable]
      exact hold hnt

/-- A nonterminal that has a name and is still declared in the normalized grammar generates what it did, but for the empty word
where left recursion was removed. -/
theorem mem_words_of_normalize {g : Grammar} {n : Normalized} (hn : g.normalize = .ok n) {nt : Nonterminal} {name : String}
    (hname : g.names.get? nt = some name) (hnt : nt ∈ n.grammar.declared) {word : List Char}
    (hword : word ≠ [] ∨ n.route = .leftFactoring) : word ∈ n.grammar.words nt ↔ word ∈ g.words nt := by
  have hg := (exists_normalize_eq_ok_iff.1 ⟨n, hn⟩).1
  obtain ⟨-, followed, hfollow, ht⟩ := exists_follow_of_normalize hn
  rw [ht.words_iff hnt]
  cases hroute : n.route with
  | leftRecursionRemoval =>
    rw [hroute] at hfollow hword
    have hd := declared_of_mem_productive (ht.mem_declared_iff.1 hnt).1
    exact mem_words_of_descending hg hfollow hname hd (hword.resolve_right nofun)
  | leftFactoring =>
    rw [hroute] at hfollow
    cases hfollow
    exact mem_words_factored_iff ((Inherits.normalize hn).declared_of_named hname hnt)

/-! ## Grammars from text -/

/-- In a grammar that a text gives, what is not declared comes after everything that is. -/
theorem length_declared_le_of_not_declared {text : String} {g : Grammar} (h : ofText text = .ok g) {nt : Nonterminal}
    (hnt : nt ∉ g.declared) : g.declared.length ≤ nt := by
  obtain ⟨ds, -, rfl, -⟩ := exists_definitions_of_ofText h
  rw [declared_ofDefinitions, List.mem_range] at hnt
  rw [declared_ofDefinitions, List.length_range]
  omega

/-- Every nonterminal with a production has a name of the table, as it is. -/
theorem Printable.primed {g : Grammar} (hg : g.Printable) : Labelled g.names.Primed (fun _ => True) g := by
  refine ⟨fun nt hne => ?_, fun _ _ _ _ _ => trivial⟩
  obtain ⟨name, hname⟩ := hg.named nt (declared_of_productionsOf_ne_nil hne)
  exact ⟨name, hname, nt, name, 0, hname, by simp⟩

/-- In the normalized form of a grammar that a text gives, all old names stand for what they stood for, everything declared has a
name, and no name stands for two. What is new comes after all that was declared, and has an old name with one apostrophe or more
behind it. What is old and still declared generates the words that it generated, the empty word included where the grammar was
factored. -/
theorem normalize_identity {text : String} {g : Grammar} {n : Normalized} (h : ofText text = .ok g)
    (hn : g.normalize = .ok n) :
    (∀ nt name, g.names.get? nt = some name → n.grammar.names.get? nt = some name) ∧
    (∀ nt ∈ n.grammar.declared, ∃ name, n.grammar.names.get? nt = some name) ∧
    (∀ nt m name, n.grammar.names.get? nt = some name → n.grammar.names.get? m = some name → nt = m) ∧
    (∀ nt ∈ n.grammar.declared, nt ∉ g.declared → g.declared.length ≤ nt ∧ ∃ origin base k,
      g.names.get? origin = some base ∧
      n.grammar.names.get? nt = some (base ++ String.ofList (List.replicate (k + 1) '\''))) ∧
    (∀ nt ∈ g.declared, nt ∈ n.grammar.declared →
      (∀ word, word ≠ [] → (n.grammar.Generates nt word ↔ g.Generates nt word)) ∧
      (n.route = .leftFactoring → (n.grammar.Generates nt [] ↔ g.Generates nt []))) := by
  have hprintable := (printable_of_ofText h).1
  have hinherits := Inherits.normalize hn
  obtain ⟨-, followed, -, ht⟩ := exists_follow_of_normalize hn
  have hlabelled := hprintable.primed.normalize (fun _ => Names.Primed.push) hn
  have hnamed : ∀ nt ∈ n.grammar.declared, ∃ name, n.grammar.names.get? nt = some name ∧ g.names.Primed name :=
    fun nt hnt => hlabelled.head nt (ht.productionsOf_ne_nil hnt)
  refine ⟨hinherits.name, fun nt hnt => ?_, fun nt m name => Names.get?_inj,
    fun nt hnt hnew => ⟨length_declared_le_of_not_declared h hnew, ?_⟩, fun nt hold hnt => ?_⟩
  · obtain ⟨name, hname, -⟩ := hnamed nt hnt
    exact ⟨name, hname⟩
  · obtain ⟨_, hname, origin, base, k, hbase, rfl⟩ := hnamed nt hnt
    cases k with
    | zero =>
      simp only [List.replicate_zero, String.ofList_nil, String.append_empty] at hname
      have heq := Names.get?_inj hname (hinherits.name origin base hbase)
      exact absurd (hinherits.declared_of_named (heq ▸ hbase) hnt) hnew
    | succ k => exact ⟨origin, base, k, hbase, hname⟩
  · obtain ⟨name, hname⟩ := hprintable.named nt hold
    exact ⟨fun word hne => mem_words_of_normalize hn hname hnt (.inl hne),
      fun hroute => mem_words_of_normalize hn hname hnt (.inr hroute)⟩

/-- A left recursive nonterminal and one without words. -/
def failing : Grammar :=
  ⟨0, .ofList [(0, [[.nonterminal 0, .terminal 'a'], [.nonterminal 1, .terminal 'b'], [.terminal 'c'], []]),
    (1, [[.nonterminal 1]])], .ofList [(0, "S"), (1, "U")]⟩

/-- The one without words is given up, and neither its number nor its name is used again for the tail and the fresh start. -/
theorem normalize_identity_failing : ofText "<S>::=<S>a|<U>b|c|\n<U>::=<U>" = .ok failing ∧
    ∃ n, failing.normalize = .ok n ∧ n.grammar.declared = [0, 2, 3] ∧ n.grammar.names.get? 1 = some "U" ∧
    (2 ≤ 3 ∧ ∃ origin base k, failing.names.get? origin = some base ∧
      n.grammar.names.get? 3 = some (base ++ String.ofList (List.replicate (k + 1) '\''))) ∧
    ∀ word, word ≠ [] → (n.grammar.Generates 0 word ↔ failing.Generates 0 word) := by
  have hg : ofText "<S>::=<S>a|<U>b|c|\n<U>::=<U>" = .ok failing := by decide
  obtain ⟨n, hn⟩ : ∃ n, failing.normalize = .ok n := ⟨_, rfl⟩
  obtain ⟨hname, -, -, hnew, hold⟩ := normalize_identity hg hn
  have hdeclared : n.grammar.declared = [0, 2, 3] := by
    cases hn
    decide
  have hthree := hnew 3 (by simp [hdeclared]) (by decide)
  exact ⟨hg, n, hn, hdeclared, hname 1 "U" rfl, hthree, (hold 0 (by decide) (by simp [hdeclared])).1⟩

end Grammar

end TopDown
