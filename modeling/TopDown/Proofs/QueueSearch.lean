import TopDown.Proofs.Layers
import TopDown.QueueSearch

/-!
# Search with a queue is search by layers

A queue that holds a layer is taken one nonterminal after the other, and what joins it meanwhile is the next layer: what was met
by then is what the layers so far hold. So a queue goes through the same layers, it is empty after the last of them, and the
distance that it notes is the number of the layer.

Main statements: `run_frontier` (one layer) and `run_layersFrom` (all of them).
-/

namespace TopDown

/-- The members of layers with the numbers of their layers, counted from `d`. -/
def numbered (d : Nat) (layers : List (List Nonterminal)) : Table Nat :=
  (layers.zipIdx d).flatMap fun layer => layer.1.map fun nt => (nt, layer.2)

theorem numbered_cons (d : Nat) (layer : List Nonterminal) (layers : List (List Nonterminal)) :
    numbered d (layer :: layers) = layer.map (fun nt => (nt, d)) ++ numbered (d + 1) layers := by
  rw [numbered, List.zipIdx_cons, List.flatMap_cons, numbered]

/-- Numbering keeps the members as they stand. -/
theorem map_fst_numbered (d : Nat) (layers : List (List Nonterminal)) : (numbered d layers).map Prod.fst = layers.flatten := by
  induction layers generalizing d with
  | nil => rfl
  | cons layer layers ih =>
    have hlayer : (layer.map fun nt => (nt, d)).map Prod.fst = layer := by
      rw [List.map_map]
      exact List.map_id layer
    rw [numbered_cons, List.map_append, hlayer, ih, List.flatten_cons]

/-- A member is numbered with the place of a layer that holds it. -/
theorem mem_numbered {nt : Nonterminal} {n : Nat} {layers : List (List Nonterminal)} :
    (nt, n) ∈ numbered 0 layers ↔ ∃ layer, layers[n]? = some layer ∧ nt ∈ layer := by
  simp only [numbered, List.mem_flatMap, List.mem_map, Prod.mk.injEq, Prod.exists, List.mem_zipIdx_iff_getElem?]
  constructor
  · rintro ⟨layer, n, hlayer, _, hm, rfl, rfl⟩
    exact ⟨layer, hlayer, hm⟩
  · rintro ⟨layer, hlayer, hm⟩
    exact ⟨layer, n, hlayer, nt, hm, rfl, rfl⟩

/-- Where no two layers share a member, the number of a member is the place of its layer. -/
theorem get?_numbered_eq_some_iff {nt : Nonterminal} {n : Nat} {layers : List (List Nonterminal)} (h : layers.flatten.Nodup) :
    Table.get? nt (numbered 0 layers) = some n ↔ ∃ layer, layers[n]? = some layer ∧ nt ∈ layer := by
  rw [Table.get?_eq_some_iff (by rwa [map_fst_numbered]), mem_numbered]

/-- What is in no layer has no number. -/
theorem get?_numbered_eq_none_iff {nt : Nonterminal} {layers : List (List Nonterminal)} :
    Table.get? nt (numbered 0 layers) = none ↔ nt ∉ layers.flatten := by
  rw [Table.get?_eq_none_iff, map_fst_numbered]

namespace QueueSearch

/-- What a list holds and was not met, each member once. -/
def unmet (distances : Table Nat) (nts : List Nonterminal) : List Nonterminal :=
  distinct (nts.filter fun nt => (Table.get? nt distances).isNone)

/-- What has a distance after some members got one. -/
theorem get?_note (distances : Table Nat) (nts : List Nonterminal) (d : Nat) (nt : Nonterminal) :
    Table.get? nt (distances ++ nts.map fun m => (m, d)) =
      (Table.get? nt distances).or (if nt ∈ nts then some d else none) := by
  rw [Table.get?_append, Table.get?_map_pair fun _ => d]

theorem unmet_cons_of_some {distances : Table Nat} {nt : Nonterminal} {d : Nat} (h : Table.get? nt distances = some d)
    (nts : List Nonterminal) : unmet distances (nt :: nts) = unmet distances nts := by
  rw [unmet, unmet, List.filter_cons_of_neg (by simp [h])]

/-- Of the second of two lists the members are unmet that the first does not hold. -/
theorem unmet_append (distances : Table Nat) (nts more : List Nonterminal) (d : Nat) :
    unmet distances (nts ++ more) = unmet distances nts ++
      unmet (distances ++ (unmet distances nts).map fun nt => (nt, d)) more := by
  have hlater : ∀ nt,
      (decide (nt ∉ nts.filter fun m => (Table.get? m distances).isNone) && (Table.get? nt distances).isNone) =
        (Table.get? nt (distances ++ (unmet distances nts).map fun m => (m, d))).isNone := by
    intro nt
    rw [get?_note]
    cases h : Table.get? nt distances with
    | some _ => simp
    | none => by_cases hnt : nt ∈ nts <;> simp [unmet, h, hnt]
  rw [unmet, List.filter_append, distinct_append, ← distinct_filter, List.filter_filter]
  simp only [hlater]
  rfl

/-- Meeting the members of a list notes those that are unmet, and they join the queue. -/
theorem foldl_meet (d : Nat) (distances : Table Nat) (queue nts : List Nonterminal) :
    nts.foldl (meet d) ⟨distances, queue⟩ =
      ⟨distances ++ (unmet distances nts).map fun nt => (nt, d), queue ++ unmet distances nts⟩ := by
  induction nts generalizing distances queue with
  | nil => simp [unmet, distinct]
  | cons nt nts ih =>
    rw [List.foldl_cons]
    cases h : Table.get? nt distances with
    | some e =>
      have hmeet : meet d ⟨distances, queue⟩ nt = ⟨distances, queue⟩ := by simp only [meet, h]
      rw [hmeet, unmet_cons_of_some h]
      exact ih distances queue
    | none =>
      have hmeet : meet d ⟨distances, queue⟩ nt = ⟨distances ++ [(nt, d)], queue ++ [nt]⟩ := by simp only [meet, h]
      have hfirst : unmet distances [nt] = [nt] := by simp [unmet, distinct, h]
      have hsplit : unmet distances (nt :: nts) = nt :: unmet (distances ++ [(nt, d)]) nts := by
        have h := unmet_append distances [nt] nts d
        rwa [hfirst] at h
      rw [hmeet, hsplit, ih]
      simp

section

variable {next : Nonterminal → List Nonterminal}

theorem run_cons (fuel : Nat) (distances : Table Nat) (nt : Nonterminal) (queue : List Nonterminal) :
    run next (fuel + 1) ⟨distances, nt :: queue⟩ = run next fuel (take next ⟨distances, queue⟩ nt) := rfl

theorem run_of_queue_nil (fuel : Nat) (distances : Table Nat) : run next fuel ⟨distances, []⟩ = ⟨distances, []⟩ := by
  cases fuel <;> rfl

/-- Taking a whole layer notes what it leads to and was not met, one further away, and this is what joins the queue. -/
theorem run_layer (fuel d : Nat) (distances : Table Nat) (layer queue : List Nonterminal)
    (hlayer : ∀ nt ∈ layer, Table.get? nt distances = some d) :
    run next (layer.length + fuel) ⟨distances, layer ++ queue⟩ =
      run next fuel ⟨distances ++ (unmet distances (layer.flatMap next)).map fun nt => (nt, d + 1),
        queue ++ unmet distances (layer.flatMap next)⟩ := by
  induction layer generalizing distances queue with
  | nil => simp [unmet, distinct]
  | cons nt layer ih =>
    obtain ⟨hnt, hrest⟩ := List.forall_mem_cons.1 hlayer
    let noted := distances ++ (unmet distances (next nt)).map fun m => (m, d + 1)
    have hnoted : ∀ m ∈ layer, Table.get? m noted = some d := by
      intro m hm
      rw [get?_note, hrest m hm, Option.some_or]
    have htake : take next ⟨distances, layer ++ queue⟩ nt = ⟨noted, layer ++ (queue ++ unmet distances (next nt))⟩ := by
      rw [take, hnt, Option.getD_some, foldl_meet, List.append_assoc]
    have hstep : run next ((nt :: layer).length + fuel) ⟨distances, nt :: layer ++ queue⟩ =
        run next (layer.length + fuel) ⟨noted, layer ++ (queue ++ unmet distances (next nt))⟩ := by
      rw [List.length_cons, Nat.add_right_comm, List.cons_append, run_cons, htake]
    rw [hstep, ih _ _ hnoted, List.flatMap_cons, unmet_append distances (next nt) _ (d + 1)]
    simp only [noted, List.map_append, List.append_assoc]

/-- When a layer got its distance, the layer counts as met. -/
theorem isSome_get?_note {seen : Index Unit} {distances : Table Nat}
    (hmet : ∀ nt, (Table.get? nt distances).isSome = seen.contains nt) (frontier : List Nonterminal) (d : Nat) (nt : Nonterminal) :
    (Table.get? nt (distances ++ frontier.map fun m => (m, d))).isSome = (seen.insertAll frontier).contains nt := by
  rw [Bool.eq_iff_iff, Index.contains_insertAll, ← hmet, get?_note]
  by_cases hf : nt ∈ frontier <;> simp [hf]

/-- When a layer is taken that got its distance, the queue holds the layer after it. -/
theorem run_frontier (fuel d : Nat) {seen : Index Unit} {distances : Table Nat} {frontier : List Nonterminal}
    (hmet : ∀ nt, (Table.get? nt distances).isSome = seen.contains nt) (hnew : ∀ nt ∈ frontier, seen.contains nt = false) :
    let further := distinct ((frontier.flatMap next).filter fun nt => !(seen.insertAll frontier).contains nt)
    run next (frontier.length + fuel) ⟨distances ++ frontier.map fun nt => (nt, d), frontier⟩ =
      run next fuel ⟨distances ++ frontier.map (fun nt => (nt, d)) ++ further.map fun nt => (nt, d + 1), further⟩ := by
  have hdistance : ∀ nt ∈ frontier, Table.get? nt (distances ++ frontier.map fun m => (m, d)) = some d := by
    intro nt hf
    have hnone : Table.get? nt distances = none := by
      rw [← Option.not_isSome_iff_eq_none, hmet, hnew nt hf]
      exact Bool.false_ne_true
    rw [get?_note, hnone, if_pos hf, Option.none_or]
  have hunmet : unmet (distances ++ frontier.map fun m => (m, d)) (frontier.flatMap next) =
      distinct ((frontier.flatMap next).filter fun nt => !(seen.insertAll frontier).contains nt) := by
    rw [unmet]
    simp only [← isSome_get?_note hmet frontier d, Option.not_isSome]
  have h : run next (frontier.length + fuel) ⟨distances ++ frontier.map fun nt => (nt, d), frontier ++ []⟩ = _ :=
    run_layer fuel d _ frontier [] hdistance
  rwa [List.append_nil, List.nil_append, hunmet] at h

/-- A search whose queue holds a layer goes through the layers from there, and then its queue is empty. What was met is what was
seen and the layer itself, because a layer counts as met before it is taken. -/
theorem run_layersFrom {active : List Nonterminal} (hactive : ∀ nt, next nt ≠ [] → nt ∈ active) (fuel more d : Nat)
    {seen : Index Unit} {distances : Table Nat} {frontier : List Nonterminal}
    (hmet : ∀ nt, (Table.get? nt distances).isSome = seen.contains nt)
    (hnew : ∀ nt ∈ frontier, seen.contains nt = false) (hfuel : unseen active seen < fuel) :
    run next ((layersFrom next fuel seen frontier).flatten.length + more)
        ⟨distances ++ frontier.map fun nt => (nt, d), frontier⟩ =
      ⟨distances ++ numbered d (layersFrom next fuel seen frontier), []⟩ := by
  induction fuel generalizing seen distances frontier d with
  | zero => omega
  | succ fuel ih =>
    rw [layersFrom]
    split
    · rename_i hempty
      rw [List.isEmpty_iff.1 hempty]
      simpa [numbered] using run_of_queue_nil more distances
    · rw [List.flatten_cons, List.length_append, Nat.add_assoc, run_frontier _ d hmet hnew, numbered_cons, ← List.append_assoc]
      by_cases hleads : ∃ c ∈ frontier, next c ≠ []
      · obtain ⟨c, hc, hcn⟩ := hleads
        have hlt := unseen_insertAll_lt (hactive c hcn) hc (hnew c hc)
        exact ih (d + 1) (isSome_get?_note hmet frontier d) (fun m hm => (mem_next_frontier.1 hm).2) (by omega)
      · have hstop : frontier.flatMap next = [] :=
          List.flatMap_eq_nil_iff.2 fun c hc => Decidable.byContradiction fun hn => hleads ⟨c, hc, hn⟩
        rw [hstop, List.filter_nil, distinct, layersFrom_nil]
        simpa [numbered] using run_of_queue_nil more (distances ++ frontier.map fun nt => (nt, d))

/-- A search from a nonterminal that may take all that can be reached goes through all layers, and its queue is empty then. -/
theorem run_start {active : List Nonterminal} (hactive : ∀ nt, next nt ≠ [] → nt ∈ active) {bound : Nat}
    (hbound : active.length ≤ bound) {fuel : Nat} {nt : Nonterminal} (hfuel : (closure next bound nt).length ≤ fuel) :
    run next fuel (start nt) = ⟨numbered 0 (layers next bound nt), []⟩ := by
  have hmet : ∀ m, (Table.get? m ([] : Table Nat)).isSome = (Index.empty : Index Unit).contains m := by simp
  have hnew : ∀ m ∈ [nt], (Index.empty : Index Unit).contains m = false := fun m _ => Index.contains_empty m
  have h := run_layersFrom hactive (bound + 1) (fuel - (closure next bound nt).length) 0 hmet hnew (unseen_empty_lt hbound)
  have hsum : (layersFrom next (bound + 1) .empty [nt]).flatten.length + (fuel - (closure next bound nt).length) = fuel :=
    Nat.add_sub_of_le hfuel
  rwa [hsum] at h

end

end QueueSearch

end TopDown
