import Mathlib.Data.ENat.Lattice
import TopDown.Proofs.Layers

/-!
# Layers are distances

A search by layers comes to everything on a shortest path. What it has seen when it comes to a layer is what is nearer than this
layer's number, and the layer is what is exactly as far; so what the layer leads to, and was not seen by then, is one further
away. What is in no layer cannot be reached at all.

Main statements: `AtDistance.further` (one layer), `distance_of_getElem?_layers` and `distance_eq_top_iff`.
-/

namespace TopDown

/-- There is a path of some length from one nonterminal to another. -/
inductive Path (next : Nonterminal → List Nonterminal) (nt : Nonterminal) : Nat → Nonterminal → Prop where
  | start : Path next nt 0 nt
  | step {n : Nat} {a b : Nonterminal} (h : Path next nt n a) (hb : b ∈ next a) : Path next nt (n + 1) b

/-- The length of a shortest path from one nonterminal to another, infinite where there is none. -/
noncomputable def distance (next : Nonterminal → List Nonterminal) (nt m : Nonterminal) : ℕ∞ :=
  ⨅ (n : Nat) (_ : Path next nt n m), (n : ℕ∞)

section

variable {next : Nonterminal → List Nonterminal} {nt m : Nonterminal}

/-- What a path leads to can be reached. -/
theorem Path.reaches {n : Nat} (h : Path next nt n m) : Reaches next nt m := by
  induction h with
  | start => exact .refl
  | step _ hb ih => exact ih.tail hb

/-- A path that no other is shorter than gives the distance. -/
theorem distance_eq_coe {n : Nat} (h : Path next nt n m) (hshortest : ∀ k, Path next nt k m → n ≤ k) :
    distance next nt m = n := by
  apply le_antisymm
  · exact iInf₂_le n h
  · refine le_iInf₂ fun k hk => ?_
    exact Nat.cast_le.2 (hshortest k hk)

/-- What can be reached lies at the end of a path. -/
theorem Reaches.exists_path (h : Reaches next nt m) : ∃ n, Path next nt n m := by
  induction h with
  | refl => exact ⟨0, .start⟩
  | tail _ hb ih =>
    obtain ⟨n, hpath⟩ := ih
    exact ⟨n + 1, .step hpath hb⟩

/-- What is infinitely far away cannot be reached, and nothing else. -/
theorem distance_eq_top_iff : distance next nt m = ⊤ ↔ ¬Reaches next nt m := by
  rw [distance, iInf₂_eq_top]
  constructor
  · intro h hreaches
    obtain ⟨n, hpath⟩ := hreaches.exists_path
    exact ENat.natCast_ne_top n (h n hpath)
  · intro h n hpath
    exact absurd hpath.reaches h

/-- A search by layers has come to a distance: it has seen what is nearer, and its frontier is what is just as far. -/
structure AtDistance (next : Nonterminal → List Nonterminal) (nt : Nonterminal) (d : Nat) (seen : Index Unit)
    (frontier : List Nonterminal) : Prop where
  seen : ∀ m, seen.contains m = true ↔ ∃ k < d, Path next nt k m
  frontier : ∀ m, m ∈ frontier ↔ Path next nt d m ∧ ¬∃ k < d, Path next nt k m

namespace AtDistance

variable {d : Nat} {seen : Index Unit} {frontier : List Nonterminal}

/-- The search starts at distance zero. -/
theorem start (next : Nonterminal → List Nonterminal) (nt : Nonterminal) : AtDistance next nt 0 .empty [nt] := by
  refine ⟨fun m => ?_, fun m => ?_⟩
  · simp
  · rw [List.mem_singleton]
    constructor
    · intro hm
      subst hm
      exact ⟨.start, by simp⟩
    · intro hm
      cases hm.1
      rfl

/-- The next layer is one further away. -/
theorem further (h : AtDistance next nt d seen frontier) : AtDistance next nt (d + 1) (seen.insertAll frontier)
    (distinct ((frontier.flatMap next).filter fun m => !(seen.insertAll frontier).contains m)) := by
  have hseen : ∀ m, (seen.insertAll frontier).contains m = true ↔ ∃ k < d + 1, Path next nt k m := by
    intro m
    rw [Index.contains_insertAll, h.seen, h.frontier]
    constructor
    · rintro (⟨hpath, -⟩ | ⟨k, hk, hpath⟩)
      · exact ⟨d, by omega, hpath⟩
      · exact ⟨k, by omega, hpath⟩
    · rintro ⟨k, hk, hpath⟩
      by_cases hnear : ∃ k < d, Path next nt k m
      · exact Or.inr hnear
      · have hkd : k = d := by
          have : ¬k < d := fun hlt => hnear ⟨k, hlt, hpath⟩
          omega
        exact Or.inl ⟨hkd ▸ hpath, hnear⟩
  refine ⟨hseen, fun m => ?_⟩
  rw [mem_next_frontier, ← hseen m, Bool.not_eq_true]
  refine and_congr_left fun hnew => ?_
  constructor
  · rintro ⟨a, ha, hm⟩
    exact .step ((h.frontier a).1 ha).1 hm
  · intro hpath
    cases hpath with
    | step hpath hm =>
      refine ⟨_, (h.frontier _).2 ⟨hpath, fun ⟨k, hk, hshort⟩ => ?_⟩, hm⟩
      have hin := (hseen m).2 ⟨k + 1, by omega, .step hshort hm⟩
      rw [hnew] at hin
      cases hin

/-- The frontier is as far away as the search has come. -/
theorem distance_eq (h : AtDistance next nt d seen frontier) (hm : m ∈ frontier) : distance next nt m = d := by
  obtain ⟨hpath, hnear⟩ := (h.frontier m).1 hm
  refine distance_eq_coe hpath fun k hk => ?_
  by_contra hlt
  exact hnear ⟨k, by omega, hk⟩

/-- Each layer is one further away than the layer before it. -/
theorem distance_of_getElem?_layersFrom (fuel : Nat) (h : AtDistance next nt d seen frontier) {i : Nat}
    {layer : List Nonterminal} (hlayer : (layersFrom next fuel seen frontier)[i]? = some layer) (hm : m ∈ layer) :
    distance next nt m = ((d + i : Nat) : ℕ∞) := by
  induction fuel generalizing d seen frontier i with
  | zero => simp [layersFrom] at hlayer
  | succ fuel ih =>
    rw [layersFrom] at hlayer
    split at hlayer
    · simp at hlayer
    · cases i with
      | zero =>
        cases hlayer
        exact h.distance_eq hm
      | succ i =>
        have hrest := ih h.further hlayer
        rw [hrest, Nat.add_right_comm, Nat.add_assoc]

end AtDistance

/-- The number of a layer is the distance of what it holds. -/
theorem distance_of_getElem?_layers {bound i : Nat} {layer : List Nonterminal} (hlayer : (layers next bound nt)[i]? = some layer)
    (hm : m ∈ layer) : distance next nt m = i := by
  have h := (AtDistance.start next nt).distance_of_getElem?_layersFrom (bound + 1) hlayer hm
  rwa [Nat.zero_add] at h

end

end TopDown
