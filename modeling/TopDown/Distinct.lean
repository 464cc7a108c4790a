/-!
# First appearances

A list read as an ordered set: each member once, where it first appears. Alternatives, names and layers of a search are all
made this way, so that the order in which things are written is the order in which they are kept.
-/

namespace TopDown

variable {α : Type} [DecidableEq α]

/-- The members of a list in order of first appearance; later repetitions are dropped. -/
def distinct : List α → List α
  | [] => []
  | a :: l => a :: (distinct l).filter (· ≠ a)

/-- Dropping repetitions keeps every member. -/
@[simp] theorem mem_distinct {a : α} {l : List α} : a ∈ distinct l ↔ a ∈ l := by
  induction l with
  | nil => simp [distinct]
  | cons b l ih =>
    by_cases h : a = b <;> simp [distinct, ih, h]

/-- No member is kept twice. -/
theorem nodup_distinct (l : List α) : (distinct l).Nodup := by
  induction l with
  | nil => exact List.Pairwise.nil
  | cons a l ih =>
    refine List.Pairwise.cons (fun b hb => ?_) (ih.filter _)
    have := (List.mem_filter.1 hb).2
    exact fun h => by simp [h] at this

/-- What is kept stands in the same order. -/
theorem distinct_sublist (l : List α) : (distinct l).Sublist l := by
  induction l with
  | nil => exact List.Sublist.slnil
  | cons a l ih => exact (List.filter_sublist.trans ih).cons_cons a

/-- A list without repetition is kept as it is. -/
theorem distinct_eq_self {l : List α} (h : l.Nodup) : distinct l = l := by
  induction l with
  | nil => rfl
  | cons a l ih =>
    obtain ⟨ha, hl⟩ := List.nodup_cons.1 h
    rw [distinct, ih hl, List.filter_eq_self.2]
    intro b hb
    simpa using fun hba : b = a => ha (hba ▸ hb)

/-- Members that are left out can be left out before or after. -/
theorem distinct_filter (p : α → Bool) (l : List α) : distinct (l.filter p) = (distinct l).filter p := by
  induction l with
  | nil => rfl
  | cons a l ih =>
    rw [distinct]
    by_cases ha : p a = true
    · rw [List.filter_cons_of_pos ha, List.filter_cons_of_pos ha, distinct, ih, List.filter_filter, List.filter_filter]
      simp only [Bool.and_comm]
    · have hdrop : ∀ b, (p b && decide (b ≠ a)) = p b := by
        intro b
        by_cases hb : b = a
        · simp [hb, ha]
        · simp [hb]
      rw [List.filter_cons_of_neg ha, List.filter_cons_of_neg ha, ih, List.filter_filter]
      simp only [hdrop]

/-- Of a second list only the members are kept that the first has not. -/
theorem distinct_append (l m : List α) : distinct (l ++ m) = distinct l ++ (distinct m).filter (· ∉ l) := by
  induction l with
  | nil => exact (List.filter_eq_self.2 fun _ _ => by simp).symm
  | cons a l ih =>
    have hnot : ∀ b, (decide (b ≠ a) && decide (b ∉ l)) = decide (b ∉ a :: l) := fun b => by simp
    simp only [List.cons_append, distinct, ih, List.filter_append, List.filter_filter, hnot]

theorem distinct_concat (l : List α) (a : α) : distinct (l ++ [a]) = if a ∈ l then distinct l else distinct l ++ [a] := by
  rw [distinct_append]
  split <;> simp [distinct, *]

/-- A member that repeats an earlier one makes no difference. -/
theorem distinct_append_cons {l : List α} {a : α} (h : a ∈ l) (m : List α) : distinct (l ++ a :: m) = distinct (l ++ m) := by
  have hdrop : ∀ b, (decide (b ∉ l) && decide (b ≠ a)) = decide (b ∉ l) := by
    intro b
    by_cases hb : b ∈ l
    · simp [hb]
    · have hne : b ≠ a := fun hba => hb (hba ▸ h)
      simp [hb, hne]
  rw [distinct_append, distinct_append, distinct, List.filter_cons_of_neg (by simpa using h), List.filter_filter]
  simp only [hdrop]

/-- Repetitions that were dropped already make no difference. -/
theorem distinct_distinct_append (l m : List α) : distinct (distinct l ++ m) = distinct (l ++ m) := by
  rw [distinct_append, distinct_append, distinct_eq_self (nodup_distinct l)]
  simp only [mem_distinct]

end TopDown
