import Mathlib.Data.Prod.Lex
import TopDown.Distance
import TopDown.Proofs.QueueSearch
import TopDown.Proofs.ShortestPaths
import TopDown.Proofs.Trimming

/-!
# Order by distance, judged

The order holds every declared nonterminal once, and a grammar that declares something has one. It is the order of the pairs of
the distance from the start and the number, where what the start does not lead to is infinitely far away: the layers come one
after the other, each in ascending order, and what is in no layer comes last. A search with a queue notes these distances, so
sorting by what it noted gives the same order.

Main statements: `queueSearch_eq` and `orderByDistance_exact`.
-/

namespace TopDown.Grammar

/-- Every declared nonterminal is in the order, and nothing else. -/
theorem mem_distanceOrder {g : Grammar} {nt : Nonterminal} : nt ∈ g.distanceOrder ↔ nt ∈ g.declared := by
  unfold distanceOrder
  simp only [List.mem_flatMap, List.mem_append, List.mem_singleton, Ascending.mem_ofList_id_iff, List.mem_filter,
    Rules.contains_eq_true_iff]
  constructor
  · rintro ⟨layer, -, -, hd⟩
    exact hd
  · intro hd
    by_cases hr : nt ∈ g.distanceLayers.flatten
    · obtain ⟨layer, hl, hnt⟩ := List.mem_flatten.1 hr
      exact ⟨layer, Or.inl hl, hnt, hd⟩
    · refine ⟨_, Or.inr rfl, List.mem_filter.2 ⟨hd, ?_⟩, hd⟩
      simpa using hr

/-- No nonterminal is in the order twice. -/
theorem nodup_distanceOrder (g : Grammar) : g.distanceOrder.Nodup := by
  have hsub : ∀ {layer : List Nonterminal} {nt : Nonterminal},
      nt ∈ Ascending.ofList id (layer.filter g.rules.contains) → nt ∈ layer :=
    fun h => (List.mem_filter.1 (Ascending.mem_ofList_id_iff.1 h)).1
  have hlayers : g.distanceLayers.flatten.Nodup := nodup_closure g.rules.size g.start
  obtain ⟨-, hdisjoint⟩ := List.nodup_flatten.1 hlayers
  unfold distanceOrder
  refine List.nodup_flatMap.2 ⟨fun layer _ => Ascending.nodup_ofList id _, ?_⟩
  refine List.pairwise_append.2 ⟨?_, List.pairwise_singleton _ _, ?_⟩
  · exact hdisjoint.imp fun h nt ha hb => h (hsub ha) (hsub hb)
  · intro layer hl rest hrest nt ha hb
    rw [List.mem_singleton.1 hrest] at hb
    have hnot := (List.mem_filter.1 (hsub hb)).2
    have hin : nt ∈ g.distanceLayers.flatten := List.mem_flatten.2 ⟨layer, hl, hsub ha⟩
    simp [hin] at hnot

theorem distanceOrder_perm (g : Grammar) : g.distanceOrder.Perm g.declared :=
  (List.perm_ext_iff_of_nodup g.nodup_distanceOrder g.rules.nodup).2 fun _ => mem_distanceOrder

/-- A grammar that declares something can be ordered. -/
theorem orderByDistance_of_declared {g : Grammar} (h : g.declared ≠ []) : g.orderByDistance = .ok g.distanceOrder := by
  rw [orderByDistance, if_neg (by simpa using h)]

/-- A well-formed grammar can be ordered. -/
theorem WellFormed.orderByDistance {g : Grammar} (hg : g.WellFormed) : g.orderByDistance = .ok g.distanceOrder :=
  orderByDistance_of_declared (List.ne_nil_of_mem hg.start)

/-! ## Distances -/

/-- How many mentions it takes at least to get from the start to a nonterminal, infinite where no number of them does. -/
noncomputable def distanceFromStart (g : Grammar) (nt : Nonterminal) : ℕ∞ := distance g.mentionsOf g.start nt

/-- What a layer holds is as far from the start as the layer's number says. -/
theorem distanceFromStart_of_getElem? {g : Grammar} {i : Nat} {layer : List Nonterminal}
    (hlayer : g.distanceLayers[i]? = some layer) {nt : Nonterminal} (hnt : nt ∈ layer) : g.distanceFromStart nt = i :=
  distance_of_getElem?_layers hlayer hnt

/-- What no layer holds is infinitely far from the start. -/
theorem distanceFromStart_of_not_mem {g : Grammar} {nt : Nonterminal} (h : nt ∉ g.distanceLayers.flatten) :
    g.distanceFromStart nt = ⊤ :=
  distance_eq_top_iff.2 fun hreaches => h (mem_reachable_iff.2 hreaches)

/-- One nonterminal comes before another when it is nearer to the start, or as near and smaller. -/
def ComesBefore (g : Grammar) (a b : Nonterminal) : Prop :=
  toLex (g.distanceFromStart a, a) < toLex (g.distanceFromStart b, b)

theorem ComesBefore.of_lt {g : Grammar} {a b : Nonterminal} (h : g.distanceFromStart a < g.distanceFromStart b) :
    g.ComesBefore a b :=
  Prod.Lex.toLex_lt_toLex.2 (Or.inl h)

/-- What comes first is not further away. -/
theorem ComesBefore.distance_le {g : Grammar} {a b : Nonterminal} (h : g.ComesBefore a b) :
    g.distanceFromStart a ≤ g.distanceFromStart b := by
  rcases Prod.Lex.toLex_lt_toLex.1 h with h | ⟨h, -⟩
  · exact h.le
  · exact h.le

/-- Nonterminals of one distance are in ascending order. -/
theorem pairwise_ofList_comesBefore {g : Grammar} {layer : List Nonterminal} {d : ℕ∞}
    (h : ∀ nt ∈ layer, g.distanceFromStart nt = d) :
    (Ascending.ofList id (layer.filter g.rules.contains)).Pairwise g.ComesBefore := by
  refine (Ascending.sorted_ofList id (layer.filter g.rules.contains)).imp_of_mem fun {a b} ha hb hlt => ?_
  simp only [Ascending.mem_ofList_id_iff, List.mem_filter] at ha hb
  refine Prod.Lex.toLex_lt_toLex.2 (Or.inr ⟨?_, hlt⟩)
  exact (h a ha.1).trans (h b hb.1).symm

/-- The order goes from the start outwards, and among nonterminals of one distance from small to large. -/
theorem pairwise_distanceOrder (g : Grammar) : g.distanceOrder.Pairwise g.ComesBefore := by
  have hsub : ∀ {layer : List Nonterminal} {nt : Nonterminal},
      nt ∈ Ascending.ofList id (layer.filter g.rules.contains) → nt ∈ layer :=
    fun h => (List.mem_filter.1 (Ascending.mem_ofList_id_iff.1 h)).1
  have hrest : ∀ nt ∈ g.declared.filter fun nt => !g.distanceLayers.flatten.contains nt, g.distanceFromStart nt = ⊤ := by
    intro nt hnt
    refine distanceFromStart_of_not_mem ?_
    simpa using (List.mem_filter.1 hnt).2
  unfold distanceOrder
  refine List.pairwise_flatMap.2 ⟨fun layer hlayer => ?_, List.pairwise_append.2 ⟨?_, List.pairwise_singleton _ _, ?_⟩⟩
  · rcases List.mem_append.1 hlayer with hlayer | hlayer
    · obtain ⟨i, hi⟩ := List.mem_iff_getElem?.1 hlayer
      exact pairwise_ofList_comesBefore fun nt hnt => distanceFromStart_of_getElem? hi hnt
    · rw [List.mem_singleton.1 hlayer]
      exact pairwise_ofList_comesBefore hrest
  · rw [List.pairwise_iff_getElem]
    intro i j hi hj hij a ha b hb
    refine .of_lt ?_
    rw [distanceFromStart_of_getElem? (List.getElem?_eq_getElem hi) (hsub ha),
      distanceFromStart_of_getElem? (List.getElem?_eq_getElem hj) (hsub hb)]
    exact Nat.cast_lt.2 hij
  · intro layer hlayer last hlast a ha b hb
    obtain ⟨i, hi⟩ := List.mem_iff_getElem?.1 hlayer
    rw [List.mem_singleton.1 hlast] at hb
    refine .of_lt ?_
    rw [distanceFromStart_of_getElem? hi (hsub ha), hrest b (hsub hb)]
    exact ENat.natCast_lt_top i

/-! ## The search with a queue -/

/-- What the start leads to is the start itself and what is mentioned. -/
theorem reachable_subset (g : Grammar) : g.reachable ⊆ g.start :: g.mentions.map Prod.snd := by
  intro nt hnt
  cases mem_reachable_iff.1 hnt with
  | refl => exact List.mem_cons_self
  | tail _ hm =>
    obtain ⟨p, hp, hnt⟩ := mem_mentionsOf.1 hm
    exact List.mem_cons_of_mem _ (List.mem_map.2 ⟨_, mem_mentions.2 ⟨p, hp, hnt⟩, rfl⟩)

/-- The search goes through all layers, and nothing is left in its queue. -/
theorem queueSearch_eq (g : Grammar) : g.queueSearch = ⟨numbered 0 g.distanceLayers, []⟩ := by
  refine QueueSearch.run_start g.declared_of_mentionsOf_ne_nil g.length_declared_le_size ?_
  have h : g.reachable.length ≤ (g.start :: g.mentions.map Prod.snd).length :=
    (nodup_closure g.rules.size g.start).length_le_of_subset g.reachable_subset
  rwa [List.length_cons, List.length_map] at h

/-- What the search notes is the distance from the start, and what it does not meet is infinitely far away. -/
theorem distanceFromStart_eq (g : Grammar) (nt : Nonterminal) :
    g.distanceFromStart nt = (Table.get? nt g.queueSearch.distances).elim ⊤ fun d => (d : ℕ∞) := by
  rw [queueSearch_eq]
  cases h : Table.get? nt (numbered 0 g.distanceLayers) with
  | none => exact distanceFromStart_of_not_mem (get?_numbered_eq_none_iff.1 h)
  | some d =>
    have hnodup : g.distanceLayers.flatten.Nodup := nodup_closure g.rules.size g.start
    obtain ⟨layer, hlayer, hnt⟩ := (get?_numbered_eq_some_iff hnodup).1 h
    exact distanceFromStart_of_getElem? hlayer hnt

/-- Sorting by what the search found compares distances from the start, and numbers where they are equal. -/
theorem mayPrecede_iff {g : Grammar} {a b : Nonterminal} :
    QueueSearch.mayPrecede g.queueSearch.distances a b = true ↔
      toLex (g.distanceFromStart a, a) ≤ toLex (g.distanceFromStart b, b) := by
  rw [Prod.Lex.toLex_le_toLex, distanceFromStart_eq, distanceFromStart_eq, QueueSearch.mayPrecede]
  cases Table.get? a g.queueSearch.distances <;> cases Table.get? b g.queueSearch.distances <;> simp

/-- Sorting by what the search found gives the order by layers. -/
theorem orderByQueue_eq (g : Grammar) : g.orderByQueue = g.orderByDistance := by
  have hsorted : (g.declared.mergeSort (QueueSearch.mayPrecede g.queueSearch.distances)).Pairwise
      fun a b => toLex (g.distanceFromStart a, a) ≤ toLex (g.distanceFromStart b, b) := by
    refine (List.pairwise_mergeSort ?_ ?_ g.declared).imp mayPrecede_iff.1
    · intro a b c hab hbc
      exact mayPrecede_iff.2 ((mayPrecede_iff.1 hab).trans (mayPrecede_iff.1 hbc))
    · intro a b
      rw [Bool.or_eq_true, mayPrecede_iff, mayPrecede_iff]
      exact le_total _ _
  have hperm : (g.declared.mergeSort (QueueSearch.mayPrecede g.queueSearch.distances)).Perm g.distanceOrder :=
    (List.mergeSort_perm _ _).trans g.distanceOrder_perm.symm
  have hantisymm : ∀ a b, toLex (g.distanceFromStart a, a) ≤ toLex (g.distanceFromStart b, b) →
      toLex (g.distanceFromStart b, b) ≤ toLex (g.distanceFromStart a, a) → a = b :=
    fun a b hab hba => (Prod.mk.inj (toLex.injective (le_antisymm hab hba))).2
  have heq : g.declared.mergeSort (QueueSearch.mayPrecede g.queueSearch.distances) = g.distanceOrder :=
    hperm.eq_of_pairwise (fun a b _ _ => hantisymm a b) hsorted (g.pairwise_distanceOrder.imp le_of_lt)
  rw [orderByQueue, orderByDistance, heq]

/-- A grammar that declares something is ordered, by layers as by a queue, which is empty in the end: every declared nonterminal
once, strictly ascending by distance from the start and, where the distances are equal, by number. What the start does not lead
to comes after everything that it leads to. -/
theorem orderByDistance_exact {g : Grammar} (h : g.declared ≠ []) :
    ∃ order, g.orderByDistance = .ok order ∧ g.orderByQueue = .ok order ∧ g.queueSearch.queue = [] ∧
      order.Perm g.declared ∧
      order.Pairwise (fun a b => toLex (g.distanceFromStart a, a) < toLex (g.distanceFromStart b, b)) ∧
      order.Pairwise fun a b => Reaches g.mentionsOf g.start b → Reaches g.mentionsOf g.start a := by
  have horder : g.orderByDistance = .ok g.distanceOrder := orderByDistance_of_declared h
  refine ⟨g.distanceOrder, horder, g.orderByQueue_eq.trans horder, congrArg QueueSearch.queue g.queueSearch_eq,
    g.distanceOrder_perm, g.pairwise_distanceOrder, ?_⟩
  refine g.pairwise_distanceOrder.imp fun {a b} hab hb => ?_
  by_contra ha
  have htop : g.distanceFromStart a = ⊤ := distance_eq_top_iff.2 ha
  exact distance_eq_top_iff.1 (top_le_iff.1 (htop ▸ hab.distance_le)) hb

/-- Cycles, one of them out of reach, a mention of 8, which is not declared, and nonterminals declared in no particular order. -/
def scattered : Grammar where
  start := 5
  rules := .ofList [(4, [[.nonterminal 2]]), (9, [[.nonterminal 5, .nonterminal 3]]), (2, [[.nonterminal 4, .nonterminal 9]]),
    (5, [[.terminal 'a', .nonterminal 9], [.nonterminal 6, .nonterminal 8]]), (3, []), (6, [[.nonterminal 5]])]
  names := .empty

/-- From the start at 5 it takes one mention to 6 and 9, two to 3, and no number of them to 2 and 4. -/
theorem orderByDistance_exact_scattered : scattered.declared ≠ [] ∧
    scattered.orderByDistance = .ok [5, 6, 9, 3, 2, 4] ∧ scattered.orderByQueue = .ok [5, 6, 9, 3, 2, 4] ∧
    scattered.queueSearch.queue = [] ∧ [5, 6, 9, 3, 2, 4].Perm scattered.declared ∧
    [5, 6, 9, 3, 2, 4].Pairwise (fun a b =>
      toLex (scattered.distanceFromStart a, a) < toLex (scattered.distanceFromStart b, b)) ∧
    [5, 6, 9, 3, 2, 4].Pairwise fun a b =>
      Reaches scattered.mentionsOf scattered.start b → Reaches scattered.mentionsOf scattered.start a := by
  have hdeclared : scattered.declared ≠ [] := by decide
  have horder : scattered.orderByDistance = .ok [5, 6, 9, 3, 2, 4] := by decide
  obtain ⟨order, hok, hrest⟩ := orderByDistance_exact hdeclared
  cases horder.symm.trans hok
  exact ⟨hdeclared, horder, hrest⟩

end TopDown.Grammar
