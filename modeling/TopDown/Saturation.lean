import TopDown.Distinct

/-!
# Saturation

A clause says that its head holds as soon as everything in its body does. The least set closed under some clauses is found in
rounds. Each round finds the heads of the clauses whose bodies are empty; then the clauses about what was found are done with,
and what was found is struck from the bodies of the others. When a round finds nothing, nothing else follows. A round that finds
something leaves fewer clauses, so there are at most as many rounds as clauses.

Main statements: the saturated set is closed under the clauses (`mem_saturate`), and whatever the clauses carry from bodies to
heads holds of the whole set (`saturate_induction`).
-/

namespace TopDown

variable {α : Type} [DecidableEq α]

/-- A rule of inference: the head follows from all members of the body together. -/
structure Clause (α : Type) where
  head : α
  body : List α
deriving DecidableEq, Repr

/-- A clause less what is known of its body. -/
def Clause.strike (known : List α) (c : Clause α) : Clause α := { c with body := c.body.filter fun a => !known.contains a }

/-- What follows at once, each once: the heads of the clauses whose bodies are empty. -/
def facts (clauses : List (Clause α)) : List α := distinct ((clauses.filter fun c => c.body.isEmpty).map Clause.head)

/-- The clauses that are left when some heads are known, less what is known of their bodies. -/
def residue (known : List α) (clauses : List (Clause α)) : List (Clause α) :=
  (clauses.filter fun c => !known.contains c.head).map (Clause.strike known)

/-- Rounds of saturation, `fuel` at most. -/
def saturateFrom : (fuel : Nat) → List (Clause α) → List α
  | 0, _ => []
  | fuel + 1, clauses =>
    let found := facts clauses
    if found.isEmpty then [] else found ++ saturateFrom fuel (residue found clauses)

/-- What follows from the clauses, in one or more rounds. -/
def saturate (clauses : List (Clause α)) : List α := saturateFrom clauses.length clauses

/-- What follows at once is the head of a clause with an empty body. -/
theorem mem_facts {clauses : List (Clause α)} {a : α} : a ∈ facts clauses ↔ ∃ c ∈ clauses, c.body = [] ∧ c.head = a := by
  simp [facts, and_assoc]

theorem mem_residue {known : List α} {clauses : List (Clause α)} {d : Clause α} :
    d ∈ residue known clauses ↔ ∃ c ∈ clauses, c.head ∉ known ∧ c.strike known = d := by
  simp [residue, and_assoc]

theorem mem_body_strike {known : List α} {c : Clause α} {a : α} : a ∈ (c.strike known).body ↔ a ∈ c.body ∧ a ∉ known := by
  simp [Clause.strike]

/-- A round that finds something leaves fewer clauses. -/
theorem length_residue_lt {clauses : List (Clause α)} (h : facts clauses ≠ []) :
    (residue (facts clauses) clauses).length < clauses.length := by
  obtain ⟨a, ha⟩ := List.exists_mem_of_ne_nil _ h
  obtain ⟨c, hc, -, rfl⟩ := mem_facts.1 ha
  rw [residue, List.length_map]
  exact List.length_filter_lt_length_iff_exists.2 ⟨c, hc, by simpa using ha⟩

/-- Given rounds enough, the head of a clause whose body is in the result is in it too. -/
theorem mem_saturateFrom (fuel : Nat) {clauses : List (Clause α)} (hf : clauses.length ≤ fuel) {c : Clause α}
    (hc : c ∈ clauses) (h : ∀ a ∈ c.body, a ∈ saturateFrom fuel clauses) : c.head ∈ saturateFrom fuel clauses := by
  induction fuel generalizing clauses c with
  | zero => simp [List.length_eq_zero_iff.1 (Nat.le_zero.1 hf)] at hc
  | succ fuel ih =>
    simp only [saturateFrom, List.isEmpty_iff] at h ⊢
    split
    · rename_i he
      rw [if_pos he] at h
      have hb : c.body = [] := List.eq_nil_iff_forall_not_mem.2 fun a ha => nomatch h a ha
      exact he ▸ mem_facts.2 ⟨c, hc, hb, rfl⟩
    · rename_i he
      rw [if_neg he] at h
      by_cases hk : c.head ∈ facts clauses
      · exact List.mem_append_left _ hk
      · have hlt := length_residue_lt he
        refine List.mem_append_right _ (ih (c := c.strike (facts clauses)) (by omega) ?_ fun a ha => ?_)
        · exact mem_residue.2 ⟨c, hc, hk, rfl⟩
        · obtain ⟨ha, hn⟩ := mem_body_strike.1 ha
          exact (List.mem_append.1 (h a ha)).resolve_left hn

/-- The saturated set is closed: it has the head of a clause whose body it has. -/
theorem mem_saturate {clauses : List (Clause α)} {c : Clause α} (hc : c ∈ clauses) (h : ∀ a ∈ c.body, a ∈ saturate clauses) :
    c.head ∈ saturate clauses :=
  mem_saturateFrom clauses.length (Nat.le_refl _) hc h

/-- What every clause carries from its body to its head holds of all that is found. -/
theorem saturateFrom_induction {holds : α → Prop} (fuel : Nat) {clauses : List (Clause α)}
    (step : ∀ c ∈ clauses, (∀ a ∈ c.body, holds a) → holds c.head) : ∀ a ∈ saturateFrom fuel clauses, holds a := by
  induction fuel generalizing clauses with
  | zero => exact fun _ h => nomatch h
  | succ fuel ih =>
    have hfacts : ∀ a ∈ facts clauses, holds a := by
      intro a ha
      obtain ⟨c, hc, hb, rfl⟩ := mem_facts.1 ha
      exact step c hc fun b hbody => by simp [hb] at hbody
    simp only [saturateFrom]
    split
    · exact fun _ h => nomatch h
    · intro a ha
      rcases List.mem_append.1 ha with ha | ha
      · exact hfacts a ha
      · refine ih (fun d hd hbody => ?_) a ha
        obtain ⟨c, hc, -, rfl⟩ := mem_residue.1 hd
        refine step c hc fun b hb => ?_
        by_cases hk : b ∈ facts clauses
        · exact hfacts b hk
        · exact hbody b (mem_body_strike.2 ⟨hb, hk⟩)

/-- What every clause carries from its body to its head holds of the whole saturated set. -/
theorem saturate_induction {clauses : List (Clause α)} {holds : α → Prop}
    (step : ∀ c ∈ clauses, (∀ a ∈ c.body, holds a) → holds c.head) : ∀ a ∈ saturate clauses, holds a :=
  saturateFrom_induction clauses.length step

end TopDown
