import TopDown.Proofs.Layers
import TopDown.Proofs.QueueSearch
import TopDown.Proofs.WellFormed
import TopDown.Proofs.Words
import TopDown.UnitRules

/-!
# Unit productions, judged

Without unit productions every nonterminal generates what it did: where a derivation used unit productions, the production that
it came to in the end is now one of the nonterminal's own.

Main statements: `mem_words_withoutUnits_iff`, `withoutUnits_exact`, and `withoutUnitsByQueue_eq`, by which a search with a queue
gives the same grammar.
-/

namespace TopDown

/-- A unit production is its target and nothing else. -/
theorem Production.unitTarget?_eq_some_iff {p : Production} {nt : Nonterminal} :
    unitTarget? p = some nt ↔ p = [.nonterminal nt] := by
  constructor
  · intro h
    unfold unitTarget? at h
    split at h
    · cases h
      rfl
    · cases h
  · rintro rfl
    rfl

namespace Grammar

open Production (reading)

/-- One nonterminal can be reached from another by unit productions. -/
def Chains (g : Grammar) : Nonterminal → Nonterminal → Prop :=
  Reaches fun nt => (g.productionsOf nt).filterMap Production.unitTarget?

/-- A unit production is one step of a chain. -/
theorem mem_filterMap_unitTarget? {g : Grammar} {nt m : Nonterminal} :
    m ∈ (g.productionsOf nt).filterMap Production.unitTarget? ↔ [.nonterminal m] ∈ g.productionsOf nt := by
  rw [List.mem_filterMap]
  constructor
  · rintro ⟨p, hp, h⟩
    exact Production.unitTarget?_eq_some_iff.1 h ▸ hp
  · exact fun h => ⟨_, h, rfl⟩

/-- Only declared nonterminals have unit productions. -/
theorem declared_of_unitTargets_ne_nil {g : Grammar} (nt : Nonterminal) (h : g.unitTargets.listOf nt ≠ []) :
    nt ∈ g.declared := by
  rw [listOf_unitTargets] at h
  obtain ⟨m, hm⟩ := List.exists_mem_of_ne_nil _ h
  exact declared_of_mem_productionsOf (mem_filterMap_unitTarget?.1 hm)

/-- The search along unit productions finds exactly the chains. -/
theorem mem_closure_unitTargets {g : Grammar} {nt m : Nonterminal} :
    m ∈ closure g.unitTargets.listOf g.rules.size nt ↔ g.Chains nt m := by
  have hnext : g.unitTargets.listOf = fun nt => (g.productionsOf nt).filterMap Production.unitTarget? :=
    funext g.listOf_unitTargets
  rw [mem_closure_iff declared_of_unitTargets_ne_nil g.length_declared_le_size, hnext]
  rfl

@[simp] theorem start_withoutUnits (g : Grammar) : g.withoutUnits.start = g.start := rfl

@[simp] theorem declared_withoutUnits (g : Grammar) : g.withoutUnits.declared = g.declared := Rules.declared_map _ _

/-- The productions of a declared nonterminal are those of all that it reaches by unit productions, less unit productions. -/
theorem mem_productionsOf_withoutUnits {g : Grammar} {nt : Nonterminal} {p : Production} :
    p ∈ g.withoutUnits.productionsOf nt ↔
      nt ∈ g.declared ∧ ∃ m, g.Chains nt m ∧ p ∈ g.productionsOf m ∧ Production.unitTarget? p = none := by
  have hrules : g.withoutUnits.rules = g.rules.map fun nt _ =>
      .ofList ((closure g.unitTargets.listOf g.rules.size nt).flatMap g.properProductions.listOf) := rfl
  rw [mem_productionsOf_map hrules]
  simp only [Alternatives.toList_ofList, mem_distinct, List.mem_flatMap, mem_closure_unitTargets, listOf_properProductions,
    List.mem_filter, Option.isNone_iff_eq_none]
  constructor
  · rintro ⟨a, ha, hm⟩
    exact ⟨Decidable.byContradiction fun hd => by simp [Rules.get?_eq_none_iff.2 hd] at ha, hm⟩
  · rintro ⟨hd, hm⟩
    obtain ⟨a, ha, -⟩ := exists_get?_of_declared hd
    exact ⟨a, ha, hm⟩

/-- What is reached by unit productions generates no more. -/
theorem Chains.words_le {g : Grammar} {nt m : Nonterminal} (h : g.Chains nt m) :
    ∀ word ∈ g.words m, word ∈ g.words nt := by
  induction h with
  | refl => exact fun _ hw => hw
  | tail _ hstep ih =>
    intro word hw
    refine ih word (words_closed g _ _ (mem_filterMap_unitTarget?.1 hstep) word ?_)
    rwa [Production.reading_singleton]

/-- Without unit productions every nonterminal generates what it did. -/
theorem mem_words_withoutUnits_iff {g : Grammar} {nt : Nonterminal} {word : List Char} :
    word ∈ g.withoutUnits.words nt ↔ word ∈ g.words nt := by
  constructor
  · refine Grammar.words_le fun m p hp w hw => ?_
    obtain ⟨-, k, hk, hpk, -⟩ := mem_productionsOf_withoutUnits.1 hp
    exact hk.words_le w (words_closed g k p hpk w hw)
  · refine Grammar.words_le fun m p hp w hw => ?_
    have hd := declared_of_mem_productionsOf hp
    cases ht : Production.unitTarget? p with
    | none =>
      have hp' := mem_productionsOf_withoutUnits.2 ⟨hd, m, Relation.ReflTransGen.refl, hp, ht⟩
      exact words_closed _ m p hp' w hw
    | some k =>
      obtain rfl := Production.unitTarget?_eq_some_iff.1 ht
      rw [Production.reading_singleton] at hw
      obtain ⟨q, hq, hwq⟩ := mem_words_iff.1 hw
      obtain ⟨-, j, hj, hqj, hqt⟩ := mem_productionsOf_withoutUnits.1 hq
      have hmj : g.Chains m j := Relation.ReflTransGen.head (mem_filterMap_unitTarget?.2 hp) hj
      exact words_closed _ m q (mem_productionsOf_withoutUnits.2 ⟨hd, j, hmj, hqj, hqt⟩) w hwq

/-- The grammar without unit productions has none. -/
theorem not_mem_productionsOf_withoutUnits (g : Grammar) (nt m : Nonterminal) :
    [.nonterminal m] ∉ g.withoutUnits.productionsOf nt := by
  intro hp
  obtain ⟨-, k, -, -, hunit⟩ := mem_productionsOf_withoutUnits.1 hp
  rw [Production.unitTarget?_eq_some_iff.2 rfl] at hunit
  cases hunit

/-- Removing unit productions makes no empty production. -/
theorem nil_not_mem_productionsOf_withoutUnits {g : Grammar} (h : ∀ nt, [] ∉ g.productionsOf nt) (nt : Nonterminal) :
    [] ∉ g.withoutUnits.productionsOf nt := by
  intro hp
  obtain ⟨-, m, -, hm, -⟩ := mem_productionsOf_withoutUnits.1 hp
  exact h m hm

/-- Removing unit productions keeps a grammar well-formed. -/
theorem WellFormed.withoutUnits {g : Grammar} (h : g.WellFormed) : g.withoutUnits.WellFormed := by
  refine ⟨by simpa using h.start, fun nt p hp m hm => ?_⟩
  obtain ⟨-, k, -, hk, -⟩ := mem_productionsOf_withoutUnits.1 hp
  simpa using h.mention k p hk m hm

/-- The grammar without unit productions has none, and declares what was declared, in the same order. Every nonterminal, declared
or not, generates what it did. The search along unit productions, cyclic or not, comes to its end: if it may go further, it
finds nothing else. -/
theorem withoutUnits_exact (g : Grammar) :
    (∀ nt m, [.nonterminal m] ∉ g.withoutUnits.productionsOf nt) ∧ g.withoutUnits.declared = g.declared ∧
    (∀ nt word, g.withoutUnits.Generates nt word ↔ g.Generates nt word) ∧
    ∀ nt more, closure g.unitTargets.listOf (g.rules.size + more) nt = closure g.unitTargets.listOf g.rules.size nt :=
  ⟨g.not_mem_productionsOf_withoutUnits, g.declared_withoutUnits, fun _ _ => mem_words_withoutUnits_iff,
    fun nt more => closure_add declared_of_unitTargets_ne_nil g.length_declared_le_size more nt⟩

/-! ## The search with a queue -/

/-- What unit productions lead to is the nonterminal itself and what is mentioned. -/
theorem closure_unitTargets_subset (g : Grammar) (nt : Nonterminal) :
    closure g.unitTargets.listOf g.rules.size nt ⊆ nt :: g.mentions.map Prod.snd := by
  intro m hm
  cases mem_closure_unitTargets.1 hm with
  | refl => exact List.mem_cons_self
  | tail _ hstep =>
    have hp := mem_filterMap_unitTarget?.1 hstep
    have hmention : (_, m) ∈ g.mentions := mem_mentions.2 ⟨_, hp, List.mem_singleton_self _⟩
    exact List.mem_cons_of_mem _ (List.mem_map.2 ⟨_, hmention, rfl⟩)

/-- The search goes through all layers, and nothing is left in its queue. -/
theorem chainSearch_eq (g : Grammar) (nt : Nonterminal) :
    g.chainSearch nt = ⟨numbered 0 (layers g.unitTargets.listOf g.rules.size nt), []⟩ := by
  refine QueueSearch.run_start declared_of_unitTargets_ne_nil g.length_declared_le_size ?_
  have h := (nodup_closure g.rules.size nt).length_le_of_subset (g.closure_unitTargets_subset nt)
  rwa [List.length_cons, List.length_map] at h

/-- From every nonterminal the search with a queue comes to its end. What it has met, in the order in which it was met, is what
unit productions lead to, nearest first, so the grammar that is made from it is the one without unit productions. -/
theorem withoutUnitsByQueue_eq (g : Grammar) :
    (∀ nt, (g.chainSearch nt).queue = [] ∧
      (g.chainSearch nt).distances.map Prod.fst = closure g.unitTargets.listOf g.rules.size nt) ∧
    g.withoutUnitsByQueue = g.withoutUnits := by
  have hmet : ∀ nt, (g.chainSearch nt).distances.map Prod.fst = closure g.unitTargets.listOf g.rules.size nt := by
    intro nt
    rw [chainSearch_eq, map_fst_numbered]
    rfl
  refine ⟨fun nt => ⟨by rw [chainSearch_eq], hmet nt⟩, ?_⟩
  simp only [withoutUnitsByQueue, hmet]
  rfl

end Grammar

end TopDown
