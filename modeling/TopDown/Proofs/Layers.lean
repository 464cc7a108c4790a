import Mathlib.Data.List.Nodup
import Mathlib.Logic.Relation
import TopDown.Layers

/-!
# Layers, judged

A search by layers finds what can be reached and nothing else, as long as it may take more layers than there are nonterminals
that lead anywhere: while the search goes on, every layer but the last holds one of these that no earlier layer held. No
nonterminal is in two layers.

Main statements: `mem_closure_iff`, `closure_add` and `nodup_closure`.
-/

namespace TopDown

/-- One nonterminal can be reached from another, in any number of steps. -/
def Reaches (next : Nonterminal → List Nonterminal) : Nonterminal → Nonterminal → Prop :=
  Relation.ReflTransGen fun a b => b ∈ next a

/-- How many nonterminals of a list are not in a set. -/
def unseen (active : List Nonterminal) (seen : Index Unit) : Nat := (active.filter fun nt => !seen.contains nt).length

/-- Adding a nonterminal that was not in the set leaves fewer outside. -/
theorem unseen_insertAll_lt {active frontier : List Nonterminal} {seen : Index Unit} {nt : Nonterminal}
    (ha : nt ∈ active) (hf : nt ∈ frontier) (hs : seen.contains nt = false) :
    unseen active (seen.insertAll frontier) < unseen active seen := by
  have hsub : (active.filter fun m => !(seen.insertAll frontier).contains m) =
      (active.filter fun m => !seen.contains m).filter fun m => !(seen.insertAll frontier).contains m := by
    rw [List.filter_filter]
    refine List.filter_congr fun m _ => ?_
    cases hm : (seen.insertAll frontier).contains m with
    | true => rfl
    | false =>
      have hnot : seen.contains m = false := by
        rw [← Bool.not_eq_true] at hm ⊢
        exact fun hc => hm ((Index.contains_insertAll seen frontier m).2 (Or.inr hc))
      simp [hnot]
  rw [unseen, unseen, hsub]
  refine List.length_filter_lt_length_iff_exists.2 ⟨nt, List.mem_filter.2 ⟨ha, by simp [hs]⟩, ?_⟩
  simp [(Index.contains_insertAll seen frontier nt).2 (Or.inl hf)]

section

variable {next : Nonterminal → List Nonterminal}

/-- The frontier after the next layer: what the layer leads to and was not seen. -/
theorem mem_next_frontier {seen : Index Unit} {frontier : List Nonterminal} {b : Nonterminal} :
    b ∈ distinct ((frontier.flatMap next).filter fun nt => !seen.contains nt) ↔
      (∃ a ∈ frontier, b ∈ next a) ∧ seen.contains b = false := by
  simp

/-- What is in a layer can be reached from the frontier. -/
theorem reaches_of_mem_layersFrom (fuel : Nat) (seen : Index Unit) (frontier : List Nonterminal) :
    ∀ b ∈ (layersFrom next fuel seen frontier).flatten, ∃ a ∈ frontier, Reaches next a b := by
  induction fuel generalizing seen frontier with
  | zero => exact fun _ h => nomatch h
  | succ fuel ih =>
    intro b hb
    rw [layersFrom] at hb
    split at hb
    · exact nomatch hb
    · rcases List.mem_append.1 hb with hb | hb
      · exact ⟨b, hb, Relation.ReflTransGen.refl⟩
      · obtain ⟨c, hc, hr⟩ := ih _ _ b hb
        obtain ⟨⟨a, ha, hac⟩, -⟩ := mem_next_frontier.1 hc
        exact ⟨a, ha, Relation.ReflTransGen.head hac hr⟩

/-- With a layer to spare the frontier is the first layer. -/
theorem mem_layersFrom_of_mem_frontier {fuel : Nat} (hfuel : 0 < fuel) (seen : Index Unit) {frontier : List Nonterminal}
    {a : Nonterminal} (h : a ∈ frontier) : a ∈ (layersFrom next fuel seen frontier).flatten := by
  obtain ⟨fuel, rfl⟩ := Nat.exists_eq_add_one.2 hfuel
  have hne : frontier.isEmpty = false := List.isEmpty_eq_false_iff.2 (List.ne_nil_of_mem h)
  rw [layersFrom, if_neg (by simp [hne])]
  exact List.mem_append_left _ h

/-- With more layers to take than active nonterminals to see, the layers are closed: what they lead to is in them or was seen
before. -/
theorem next_mem_layersFrom {active : List Nonterminal} (hactive : ∀ nt, next nt ≠ [] → nt ∈ active) (fuel : Nat)
    {seen : Index Unit} {frontier : List Nonterminal} (hnew : ∀ a ∈ frontier, seen.contains a = false)
    (hfuel : unseen active seen < fuel) :
    ∀ a ∈ (layersFrom next fuel seen frontier).flatten, ∀ b ∈ next a,
      seen.contains b = true ∨ b ∈ (layersFrom next fuel seen frontier).flatten := by
  induction fuel generalizing seen frontier with
  | zero => omega
  | succ fuel ih =>
    intro a ha b hb
    rw [layersFrom] at ha ⊢
    split at ha
    · exact nomatch ha
    · rename_i hne
      rw [if_neg hne]
      simp only [List.flatten_cons, List.mem_append] at ha ⊢
      have hsplit : ∀ c, (seen.insertAll frontier).contains c = true → seen.contains c = true ∨ c ∈ frontier :=
        fun c hc => ((Index.contains_insertAll seen frontier c).1 hc).symm
      by_cases hleads : ∃ c ∈ frontier, next c ≠ []
      · obtain ⟨c, hc, hcn⟩ := hleads
        have hlt := unseen_insertAll_lt (hactive c hcn) hc (hnew c hc)
        have hfront : ∀ d ∈ distinct ((frontier.flatMap next).filter fun nt => !(seen.insertAll frontier).contains nt),
            (seen.insertAll frontier).contains d = false := fun d hd => (mem_next_frontier.1 hd).2
        rcases ha with ha | ha
        · cases hs : (seen.insertAll frontier).contains b with
          | true => exact (hsplit b hs).imp id Or.inl
          | false =>
            exact Or.inr (Or.inr (mem_layersFrom_of_mem_frontier (by omega) _ (mem_next_frontier.2 ⟨⟨a, ha, hb⟩, hs⟩)))
        · rcases ih hfront (by omega) a ha b hb with hs | hr
          · exact (hsplit b hs).imp id Or.inl
          · exact Or.inr (Or.inr hr)
      · have hstop : ∀ c ∈ frontier, next c = [] := fun c hc => Decidable.byContradiction fun hn => hleads ⟨c, hc, hn⟩
        rcases ha with ha | ha
        · rw [hstop a ha] at hb
          exact nomatch hb
        · obtain ⟨c, hc, -⟩ := reaches_of_mem_layersFrom _ _ _ a ha
          obtain ⟨⟨d, hd, hdc⟩, -⟩ := mem_next_frontier.1 hc
          rw [hstop d hd] at hdc
          exact nomatch hdc

theorem layersFrom_nil (fuel : Nat) (seen : Index Unit) : layersFrom next fuel seen [] = [] := by
  cases fuel <;> rfl

/-- With more layers to take than active nonterminals to see, the search stops by itself: however many it may take, it takes the
same. -/
theorem layersFrom_eq_of_lt {active : List Nonterminal} (hactive : ∀ nt, next nt ≠ [] → nt ∈ active) {m n : Nat}
    {seen : Index Unit} {frontier : List Nonterminal} (hnew : ∀ a ∈ frontier, seen.contains a = false)
    (hm : unseen active seen < m) (hn : unseen active seen < n) :
    layersFrom next m seen frontier = layersFrom next n seen frontier := by
  induction m generalizing n seen frontier with
  | zero => omega
  | succ m ih =>
    obtain ⟨n, rfl⟩ := Nat.exists_eq_add_one.2 (Nat.zero_lt_of_lt hn)
    rw [layersFrom, layersFrom]
    split
    · rfl
    · refine congrArg (frontier :: ·) ?_
      by_cases hleads : ∃ c ∈ frontier, next c ≠ []
      · obtain ⟨c, hc, hcn⟩ := hleads
        have hlt := unseen_insertAll_lt (hactive c hcn) hc (hnew c hc)
        exact ih (fun d hd => (mem_next_frontier.1 hd).2) (by omega) (by omega)
      · have hstop : frontier.flatMap next = [] :=
          List.flatMap_eq_nil_iff.2 fun c hc => Decidable.byContradiction fun hn => hleads ⟨c, hc, hn⟩
        rw [hstop]
        exact (layersFrom_nil _ _).trans (layersFrom_nil _ _).symm

theorem unseen_empty_lt {active : List Nonterminal} {bound : Nat} (hbound : active.length ≤ bound) :
    unseen active .empty < bound + 1 :=
  Nat.lt_succ_of_le (Nat.le_trans (List.length_filter_le _ _) hbound)

/-- What can be reached is found, and nothing else. -/
theorem mem_closure_iff {active : List Nonterminal} (hactive : ∀ nt, next nt ≠ [] → nt ∈ active) {bound : Nat}
    (hbound : active.length ≤ bound) {nt m : Nonterminal} : m ∈ closure next bound nt ↔ Reaches next nt m := by
  constructor
  · intro h
    obtain ⟨a, ha, hr⟩ := reaches_of_mem_layersFrom _ _ _ m h
    rwa [← List.mem_singleton.1 ha]
  · intro h
    induction h with
    | refl => exact mem_layersFrom_of_mem_frontier (Nat.succ_pos bound) _ List.mem_cons_self
    | tail _ hstep ih =>
      have hnew : ∀ a ∈ [nt], (Index.empty : Index Unit).contains a = false := fun a _ => Index.contains_empty a
      have hclosed := next_mem_layersFrom hactive (bound + 1) hnew (unseen_empty_lt hbound)
      rcases hclosed _ ih _ hstep with hs | hr
      · rw [Index.contains_empty] at hs
        cases hs
      · exact hr

/-- However many more layers the search may take, it finds the same, in the same order. -/
theorem closure_add {active : List Nonterminal} (hactive : ∀ nt, next nt ≠ [] → nt ∈ active) {bound : Nat}
    (hbound : active.length ≤ bound) (more : Nat) (nt : Nonterminal) :
    closure next (bound + more) nt = closure next bound nt :=
  congrArg List.flatten (layersFrom_eq_of_lt hactive (fun a _ => Index.contains_empty a)
    (unseen_empty_lt (Nat.le_add_right_of_le hbound)) (unseen_empty_lt hbound))

/-- No layer has what was seen before. -/
theorem not_seen_of_mem_layersFrom (fuel : Nat) {seen : Index Unit} {frontier : List Nonterminal}
    (hnew : ∀ a ∈ frontier, seen.contains a = false) :
    ∀ b ∈ (layersFrom next fuel seen frontier).flatten, seen.contains b = false := by
  induction fuel generalizing seen frontier with
  | zero => exact fun _ h => nomatch h
  | succ fuel ih =>
    intro b hb
    rw [layersFrom] at hb
    split at hb
    · exact nomatch hb
    · rcases List.mem_append.1 hb with hb | hb
      · exact hnew b hb
      · have h := ih (fun d hd => (mem_next_frontier.1 hd).2) b hb
        rw [← Bool.not_eq_true] at h ⊢
        exact fun hc => h ((Index.contains_insertAll seen frontier b).2 (Or.inr hc))

/-- Nothing is in two layers or twice in one. -/
theorem nodup_layersFrom (fuel : Nat) {seen : Index Unit} {frontier : List Nonterminal} (hf : frontier.Nodup)
    (hnew : ∀ a ∈ frontier, seen.contains a = false) : (layersFrom next fuel seen frontier).flatten.Nodup := by
  induction fuel generalizing seen frontier with
  | zero => exact List.nodup_nil
  | succ fuel ih =>
    rw [layersFrom]
    split
    · exact List.nodup_nil
    · have hnext : ∀ d ∈ distinct ((frontier.flatMap next).filter fun nt => !(seen.insertAll frontier).contains nt),
          (seen.insertAll frontier).contains d = false := fun d hd => (mem_next_frontier.1 hd).2
      refine List.nodup_append.2 ⟨hf, ih (nodup_distinct _) hnext, fun a ha b hb hab => ?_⟩
      have hb := not_seen_of_mem_layersFrom fuel hnext b hb
      rw [(Index.contains_insertAll seen frontier b).2 (Or.inl (hab ▸ ha))] at hb
      cases hb

theorem nodup_closure (bound : Nat) (nt : Nonterminal) : (closure next bound nt).Nodup :=
  nodup_layersFrom _ (List.nodup_singleton nt) fun a _ => Index.contains_empty a

end

end TopDown
