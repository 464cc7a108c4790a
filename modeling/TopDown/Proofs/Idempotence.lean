import TopDown.Proofs.FixedPoints

/-!
# Cleaning again

Each cleaning stage leaves alone what it is to give, and nothing else: a grammar loses no empty production when it has none, and
no unit production when it has none; it is factored already when no two productions of a nonterminal begin alike; and trimming
finds nothing to trim when everything is useful. Left alone means the same grammar, to the order of its productions. As every
stage gives what it is to give at once, a second time changes nothing.

Main statements: `withoutEmpty_eq_self_iff`, `withoutUnits_eq_self_iff`, `factored_eq_self_iff`, `trimmed_eq_self_iff` and
`cleaning_idempotent`.
-/

namespace TopDown

/-- Where no symbol can be left out, a production has no variant but itself. -/
theorem Production.variants_nil (p : Production) : variants [] p = [p] := by
  induction p with
  | nil => rfl
  | cons s p ih =>
    have hs : s.isOmittable [] = false := by cases s <;> rfl
    rw [variants, ih, List.flatMap_singleton, hs, distinctProductions_eq_distinct]
    rfl

/-- What leads nowhere reaches itself alone. -/
theorem closure_of_next_eq_nil {next : Nonterminal → List Nonterminal} {nt : Nonterminal} (h : next nt = []) (bound : Nat) :
    closure next bound nt = [nt] := by
  rw [closure, layers, layersFrom, if_neg (by simp), List.flatMap_singleton, h]
  exact congrArg (fun rest => ([nt] :: rest).flatten) (layersFrom_nil bound _)

namespace Grammar

/-! ## Empty productions -/

theorem nullable_eq_nil {g : Grammar} (h : ∀ nt, [] ∉ g.productionsOf nt) : g.nullable = [] :=
  List.eq_nil_iff_forall_not_mem.2 fun nt hnt => nil_not_mem_words h nt (mem_nullable_iff.1 hnt)

/-- Removing empty productions leaves a grammar alone when it has none. -/
theorem withoutEmpty_eq_self_iff {g : Grammar} : g.withoutEmpty = g ↔ ∀ nt, [] ∉ g.productionsOf nt := by
  constructor
  · intro h nt
    have hnone := g.nil_not_mem_productionsOf_withoutEmpty nt
    rwa [h] at hnone
  · intro h
    have hsame : ∀ entry ∈ g.rules.entries, Alternatives.ofList (expandedProductions [] entry.2.toList) = entry.2 := by
      intro entry hentry
      have hvariants : entry.2.toList.flatMap (Production.variants []) = entry.2.toList := by
        rw [List.flatMap_congr fun p _ => Production.variants_nil p, List.flatMap_singleton']
      have hkept : entry.2.toList.filter (fun p => !p.isEmpty) = entry.2.toList := by
        refine List.filter_eq_self.2 fun p hp => ?_
        rw [toList_of_mem_entries hentry] at hp
        rw [Bool.not_eq_true', List.isEmpty_eq_false_iff]
        exact fun hnil => h entry.1 (hnil ▸ hp)
      rw [expandedProductions, hvariants, hkept, Alternatives.ofList_toList]
    have hmap : g.rules.map (fun _ a => .ofList (expandedProductions [] a.toList)) = g.rules := Rules.map_eq_self hsame
    simp only [withoutEmpty, nullable_eq_nil h, hmap]

/-! ## Unit productions -/

/-- Removing unit productions leaves a grammar alone when it has none. -/
theorem withoutUnits_eq_self_iff {g : Grammar} :
    g.withoutUnits = g ↔ ∀ nt m, [.nonterminal m] ∉ g.productionsOf nt := by
  constructor
  · intro h nt m
    have hnone := g.not_mem_productionsOf_withoutUnits nt m
    rwa [h] at hnone
  · intro h
    have hunit : ∀ nt, ∀ p ∈ g.productionsOf nt, Production.unitTarget? p = none := by
      intro nt p hp
      refine Option.eq_none_iff_forall_not_mem.2 fun m hm => h nt m ?_
      rwa [← Production.unitTarget?_eq_some_iff.1 hm]
    have htargets : ∀ nt, g.unitTargets.listOf nt = [] := fun nt => by
      rw [listOf_unitTargets, List.filterMap_eq_nil_iff]
      exact hunit nt
    have hproper : ∀ nt, g.properProductions.listOf nt = g.productionsOf nt := fun nt => by
      rw [listOf_properProductions, List.filter_eq_self]
      exact fun p hp => Option.isNone_iff_eq_none.2 (hunit nt p hp)
    have hrules : g.rules.map (fun nt _ =>
        .ofList ((closure g.unitTargets.listOf g.rules.size nt).flatMap g.properProductions.listOf)) = g.rules := by
      refine Rules.map_eq_self fun entry hentry => ?_
      rw [closure_of_next_eq_nil (htargets entry.1), List.flatMap_singleton, hproper, ← toList_of_mem_entries hentry,
        Alternatives.ofList_toList]
    exact Grammar.ext rfl hrules rfl

/-! ## Common beginnings and useless symbols -/

/-- Factoring leaves a grammar alone when it is factored. -/
theorem factored_eq_self_iff {g : Grammar} : g.factored = g ↔ g.isFactored = true := by
  constructor
  · intro h
    have hfactored := g.isFactored_factored
    rwa [h] at hfactored
  · exact factored_eq_self

/-- Trimming leaves a grammar alone when it is well-formed and everything that it declares is of use. -/
theorem trimmed_eq_self_iff {g : Grammar} :
    g.trimmed = .ok g ↔ g.WellFormed ∧ ∀ nt ∈ g.declared, nt ∈ g.productive ∧ nt ∈ g.reachable := by
  constructor
  · intro h
    have ht := trimmed_eq_ok_iff.1 h
    exact ⟨ht.wellFormed, fun _ hnt => ht.useful hnt⟩
  · exact fun ⟨hg, huseful⟩ => trimmed_eq_self hg huseful

/-! ## A second time -/

/-- Removing empty productions, removing unit productions, factoring and trimming change nothing when they are done for the
second time. -/
theorem cleaning_idempotent (g : Grammar) :
    g.withoutEmpty.withoutEmpty = g.withoutEmpty ∧ g.withoutUnits.withoutUnits = g.withoutUnits ∧
    g.factored.factored = g.factored ∧ ∀ h, g.trimmed = .ok h → h.trimmed = .ok h := by
  refine ⟨withoutEmpty_eq_self_iff.2 g.nil_not_mem_productionsOf_withoutEmpty,
    withoutUnits_eq_self_iff.2 g.not_mem_productionsOf_withoutUnits, factored_eq_self_iff.2 g.isFactored_factored,
    fun h hh => ?_⟩
  have ht := trimmed_eq_ok_iff.1 hh
  exact trimmed_eq_self_iff.2 ⟨ht.wellFormed, fun _ hnt => ht.useful hnt⟩

end Grammar

end TopDown
