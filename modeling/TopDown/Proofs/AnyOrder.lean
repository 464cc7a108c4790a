import TopDown.Proofs.Alike
import TopDown.Proofs.NormalForm
import TopDown.Proofs.Refusal

/-!
# Left-recursion removal in any order

The removal of left recursion takes alike grammars to alike grammars. Each stage does: what it makes of a nonterminal's
productions has the same members when the productions have, and the nonterminals are taken in the same order, so that fresh
ones get the same numbers and names. Factoring is not like that, as it introduces fresh nonterminals in stored order.

Main statement: `normalize_anyOrder`.
-/

namespace TopDown

/-! ## What is made of productions -/

namespace Production

/-- The variants of a production are the same for lists with the same members. -/
theorem variants_congr {nts nts' : List Nonterminal} (h : SameMembers nts nts') (p : Production) :
    variants nts p = variants nts' p := by
  have homittable : ∀ s : Symbol, s.isOmittable nts = s.isOmittable nts' := by
    intro s
    cases s with
    | terminal c => rfl
    | nonterminal nt =>
      rw [Symbol.isOmittable, Symbol.isOmittable, Bool.eq_iff_iff, List.contains_iff_mem, List.contains_iff_mem]
      exact h nt
  induction p with
  | nil => rfl
  | cons s p ih => simp only [variants, ih, homittable s]

end Production

theorem SameMembers.withTail {ps qs : List Production} (h : SameMembers ps qs) (tail : Nonterminal) :
    SameMembers (withTail tail ps) (withTail tail qs) :=
  h.append (h.map _)

namespace Grammar

namespace Alike

variable {g h : Grammar}

/-! ## Edits -/

/-- Setting the same productions keeps grammars alike. -/
theorem setProductions (ha : Alike g h) (nt : Nonterminal) {ps qs : List Production} (hps : SameMembers ps qs) :
    Alike (g.setProductions nt ps) (h.setProductions nt qs) where
  start := ha.start
  names := ha.names
  declared := fun m => by rw [mem_declared_setProductions, mem_declared_setProductions, ha.declared m]
  productions := fun m => by
    rw [productionsOf_setProductions, productionsOf_setProductions]
    split
    · exact hps.distinct
    · exact ha.productions m

/-- Adding a fresh nonterminal with the same productions keeps grammars alike: it gets the same number and the same name. -/
theorem addFresh (ha : Alike g h) (origin : Nonterminal) {ps qs : List Production} (hps : SameMembers ps qs) :
    Alike (g.addFresh origin ps) (h.addFresh origin qs) := by
  have hnames : Alike (g.setName g.freshNonterminal (g.freshName origin)) (h.setName h.freshNonterminal (h.freshName origin)) := by
    refine ⟨ha.start, ?_, ha.declared, ha.productions⟩
    rw [setName, setName, ha.freshNonterminal_eq, ha.freshName_eq, ha.names]
  rw [Grammar.addFresh, Grammar.addFresh, ha.freshNonterminal_eq] at *
  exact hnames.setProductions _ hps

/-- Bringing the empty word back keeps grammars alike. -/
theorem withEmptyWord (ha : Alike g h) : Alike g.withEmptyWord h.withEmptyWord := by
  have hfresh : Alike (g.addFresh g.start [[.nonterminal g.start], []]) (h.addFresh h.start [[.nonterminal h.start], []]) := by
    rw [← ha.start]
    exact ha.addFresh g.start (.refl _)
  exact ⟨ha.freshNonterminal_eq, hfresh.names, hfresh.declared, hfresh.productions⟩

/-- The grammars of the empty word alone are alike. -/
theorem onlyEmptyWord (ha : Alike g h) : Alike g.onlyEmptyWord h.onlyEmptyWord where
  start := ha.start
  names := ha.names
  declared := by
    rw [declared_onlyEmptyWord, declared_onlyEmptyWord, ha.start]
    exact .refl _
  productions := fun nt p => by rw [mem_productionsOf_onlyEmptyWord, mem_productionsOf_onlyEmptyWord, ha.start]

/-! ## The first stages -/

/-- Removing empty productions keeps grammars alike. -/
theorem withoutEmpty (ha : Alike g h) : Alike g.withoutEmpty h.withoutEmpty where
  start := ha.start
  names := ha.names
  declared := by
    rw [declared_withoutEmpty, declared_withoutEmpty]
    exact ha.declared
  productions := fun nt p => by
    rw [mem_productionsOf_withoutEmpty, mem_productionsOf_withoutEmpty]
    refine and_congr_right fun _ => exists_congr fun q => ?_
    rw [ha.productions nt q, Production.variants_congr ha.nullable]

/-- Unit productions lead to the same nonterminals. -/
theorem chains (ha : Alike g h) {nt m : Nonterminal} (hm : g.Chains nt m) : h.Chains nt m := by
  refine Relation.ReflTransGen.mono (fun a b hab => ?_) nt m hm
  rw [mem_filterMap_unitTarget?] at hab ⊢
  exact (ha.productions a _).1 hab

/-- Removing unit productions keeps grammars alike. -/
theorem withoutUnits (ha : Alike g h) : Alike g.withoutUnits h.withoutUnits where
  start := ha.start
  names := ha.names
  declared := by
    rw [declared_withoutUnits, declared_withoutUnits]
    exact ha.declared
  productions := fun nt p => by
    rw [mem_productionsOf_withoutUnits, mem_productionsOf_withoutUnits, ha.declared nt]
    refine and_congr_right fun _ => exists_congr fun m => and_congr ⟨ha.chains, ha.symm.chains⟩ ?_
    rw [ha.productions m p]

theorem reduced (ha : Alike g h) : Alike g.reduced h.reduced := ha.withoutEmpty.withoutUnits

/-- Dropping unproductive nonterminals keeps grammars alike. -/
theorem onlyProductive (ha : Alike g h) : Alike g.onlyProductive h.onlyProductive where
  start := ha.start
  names := ha.names
  declared := fun nt => by rw [mem_declared_onlyProductive, mem_declared_onlyProductive, ha.productive nt]
  productions := fun nt p => by
    rw [mem_productionsOf_onlyProductive, mem_productionsOf_onlyProductive, ha.productions nt p]
    exact and_congr_right fun _ => forall₂_congr fun m _ => ha.productive m

/-- Trimming gives alike grammars. -/
theorem trims (ha : Alike g h) {g' h' : Grammar} (hg : Trims g g') (hh : Trims h h') : Alike g' h' where
  start := by rw [hg.start_eq, hh.start_eq, ha.start]
  names := by
    rw [hg.1, hh.1]
    exact ha.names
  declared := fun nt => by
    rw [hg.mem_declared_iff, hh.mem_declared_iff, ha.productive nt, ha.onlyProductive.reachable nt]
  productions := fun nt p => by
    rw [hg.mem_productionsOf_iff, hh.mem_productionsOf_iff, ha.onlyProductive.productions nt p, ha.onlyProductive.reachable nt]

/-- Trimming succeeds on both of two alike grammars or on neither. -/
theorem exists_trims (ha : Alike g h) {g' : Grammar} (hg : Trims g g') : ∃ h', Trims h h' :=
  ⟨_, rfl, ha.wellFormed hg.2.1, ha.start ▸ (ha.productive _).1 hg.2.2⟩

/-! ## The elimination -/

/-- Substitution makes the same of the same productions. -/
theorem substituteLeading (ha : Alike g h) {ps qs : List Production} (hps : SameMembers ps qs) (earlier : Nonterminal) :
    SameMembers (g.substituteLeading ps earlier) (h.substituteLeading qs earlier) := by
  intro p
  rw [mem_substituteLeading, mem_substituteLeading, hps p]
  refine or_congr_right (exists_congr fun rest => and_congr (hps _) (exists_congr fun e => ?_))
  rw [ha.productions earlier e]

/-- Substitution keeps grammars alike. -/
theorem substituted (ha : Alike g h) (earlier : List Nonterminal) (nt : Nonterminal) :
    Alike (g.substituted earlier nt) (h.substituted earlier nt) := by
  have hfold : ∀ {ps qs : List Production}, SameMembers ps qs →
      SameMembers (earlier.foldl g.substituteLeading ps) (earlier.foldl h.substituteLeading qs) := by
    induction earlier with
    | nil => exact id
    | cons e earlier ih => exact fun hps => ih (ha.substituteLeading hps e)
  exact ha.setProductions nt (hfold (ha.productions nt))

theorem nonrecursiveOf (ha : Alike g h) (nt : Nonterminal) : SameMembers (g.nonrecursiveOf nt) (h.nonrecursiveOf nt) :=
  (ha.productions nt).filter fun _ => rfl

/-- What follows a nonterminal at the beginning of its productions is the same. -/
theorem recursiveTailsOf (ha : Alike g h) (nt : Nonterminal) : SameMembers (g.recursiveTailsOf nt) (h.recursiveTailsOf nt) :=
  (((ha.productions nt).filter fun _ => rfl).map List.tail).filter fun _ => rfl

/-- Removing direct recursion keeps grammars alike. -/
theorem removeDirect {e f : Elimination} (ha : Alike e.grammar f.grammar) (nt : Nonterminal) :
    Alike (e.removeDirect nt).grammar (f.removeDirect nt).grammar := by
  unfold Elimination.removeDirect
  simp only [List.isEmpty_iff]
  have htails := ha.recursiveTailsOf nt
  have hothers := ha.nonrecursiveOf nt
  by_cases hnil : e.grammar.recursiveTailsOf nt = []
  · rw [if_pos hnil, if_pos (htails.eq_nil_iff.1 hnil)]
    exact ha.setProductions nt hothers
  · rw [if_neg hnil, if_neg fun hnil' => hnil (htails.eq_nil_iff.2 hnil'), ← ha.freshNonterminal_eq]
    exact (ha.addFresh nt (htails.withTail _)).setProductions nt (hothers.withTail _)

/-- An elimination in the same order keeps grammars alike. -/
theorem run {e f : Elimination} (ha : Alike e.grammar f.grammar) (earlier nts : List Nonterminal) :
    Alike (e.run earlier nts).grammar (f.run earlier nts).grammar := by
  induction nts generalizing e f earlier with
  | nil => exact ha
  | cons nt nts ih => exact ih (removeDirect (ha.substituted earlier nt) nt) (earlier ++ [nt])

/-! ## The whole route -/

/-- The removal of left recursion gives alike grammars. -/
theorem descending (ha : Alike g h) {g' h' : Grammar} (hg : g.descending = .ok g') (hh : h.descending = .ok h') :
    Alike g' h' := by
  have hnullable : g.startNullable = h.startNullable := by
    rw [Bool.eq_iff_iff, startNullable_iff, startNullable_iff]
    exact ha.language_iff []
  -- trimming succeeds on both reduced grammars or on neither, so both end in the same way
  rcases descending_cases hg with ⟨hnone, -, rfl⟩ | ⟨clean, result, ht, hresult, rfl⟩
  · rcases descending_cases hh with ⟨-, -, rfl⟩ | ⟨clean', _, ht', -, -⟩
    · exact ha.onlyEmptyWord
    · obtain ⟨clean, ht⟩ := ha.reduced.symm.exists_trims ht'
      exact absurd ht (hnone clean)
  · rcases descending_cases hh with ⟨hnone', -, -⟩ | ⟨clean', result', ht', hresult', rfl⟩
    · obtain ⟨clean', ht'⟩ := ha.reduced.exists_trims ht
      exact absurd ht' (hnone' clean')
    · have hclean := ha.reduced.trims ht ht'
      obtain ⟨-, rfl⟩ := withoutLeftRecursion_eq_ok_iff.1 hresult
      obtain ⟨-, rfl⟩ := withoutLeftRecursion_eq_ok_iff.1 hresult'
      have hrun := run (e := ⟨clean, []⟩) (f := ⟨clean', []⟩) hclean [] clean.distanceOrder
      rw [← hclean.distanceOrder_eq, ← hnullable]
      split
      · exact hrun.withEmptyWord
      · exact hrun

/-- What is not well-formed is refused for a cause of the same kind. -/
theorem kind_eq (ha : Alike g h) {cause cause' : Malformed} (hg : g.validate = .error cause) (hh : h.validate = .error cause') :
    cause.kind = cause'.kind := by
  by_cases hnil : g.declared = []
  · rw [validate, if_pos (List.isEmpty_iff.2 hnil)] at hg
    rw [validate, if_pos (List.isEmpty_iff.2 (ha.declared.eq_nil_iff.1 hnil))] at hh
    cases hg
    cases hh
    rfl
  · have hnil' : h.declared ≠ [] := fun h => hnil (ha.declared.eq_nil_iff.2 h)
    rw [kind_of_validate_eq_error hnil hg, kind_of_validate_eq_error hnil' hh]

/-- Where left recursion is removed, normalizing gives alike grammars. -/
theorem normalize (ha : Alike g h) (hleft : g.leftRecursive = true) {n n' : Normalized} (hn : g.normalize = .ok n)
    (hn' : h.normalize = .ok n') : Alike n.grammar n'.grammar := by
  obtain ⟨hroute, followed, hfollow, ht⟩ := exists_follow_of_normalize hn
  obtain ⟨hroute', followed', hfollow', ht'⟩ := exists_follow_of_normalize hn'
  rw [hroute, route, if_pos hleft] at hfollow
  rw [hroute', route, if_pos (ha.leftRecursive_eq ▸ hleft)] at hfollow'
  exact (ha.descending hfollow hfollow').trims ht ht'

end Alike

/-- Whether a grammar is left-recursive does not depend on the order in which its rules and productions are stored, and neither
does what comes out when its left recursion is removed: a grammar that differs in order only is refused for a cause of the same
kind, or normalized to a grammar that differs in order only and has the same names, the fresh ones included. -/
theorem normalize_anyOrder {g h : Grammar} (hagrees : g.agrees h = true) (hnames : g.names = h.names) :
    g.leftRecursive = h.leftRecursive ∧ (g.leftRecursive = true →
      (∃ cause cause', g.normalize = .error cause ∧ h.normalize = .error cause' ∧ cause.kind = cause'.kind) ∨
      (∃ n n', g.normalize = .ok n ∧ h.normalize = .ok n' ∧ n.grammar.agrees n'.grammar = true ∧
        n.grammar.names = n'.grammar.names)) := by
  obtain ⟨hstart, hdeclared, hproductions⟩ := agrees_iff.1 hagrees
  have ha : Alike g h := ⟨hstart, hnames, hdeclared, hproductions⟩
  refine ⟨ha.leftRecursive_eq, fun hleft => ?_⟩
  by_cases hg : g.WellFormed
  · have hh := ha.wellFormed hg
    by_cases hw : ∃ word, g.Language word
    · obtain ⟨n, hn⟩ := exists_normalize_eq_ok_iff.2 ⟨hg, hw⟩
      obtain ⟨n', hn'⟩ := exists_normalize_eq_ok_iff.2 ⟨hh, hw.imp fun word => (ha.language_iff word).1⟩
      have halike := ha.normalize hleft hn hn'
      exact .inr ⟨n, n', hn, hn', agrees_iff.2 ⟨halike.start, halike.declared, halike.productions⟩, halike.names⟩
    · have hempty : ∀ word, ¬ g.Language word := fun word hword => hw ⟨word, hword⟩
      obtain ⟨start, hn⟩ := normalize_eq_error hg hempty
      obtain ⟨start', hn'⟩ := normalize_eq_error hh fun word hword => hempty word ((ha.language_iff word).2 hword)
      exact .inl ⟨_, _, hn, hn', rfl⟩
  · obtain ⟨cause, hcause, hn⟩ := normalize_eq_error_of_not_wellFormed hg
    obtain ⟨cause', hcause', hn'⟩ := normalize_eq_error_of_not_wellFormed fun hh => hg (ha.symm.wellFormed hh)
    exact .inl ⟨cause, cause', hn, hn', ha.kind_eq hcause hcause'⟩

end Grammar

end TopDown
