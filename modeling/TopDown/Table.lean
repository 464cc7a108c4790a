import TopDown.Symbol

/-!
# Tables

What belongs to nonterminals, as a list of pairs in a fixed order. Where a nonterminal has two pairs, the first counts.
-/

namespace TopDown

/-- Pairs of a nonterminal and what belongs to it. -/
abbrev Table (β : Type) := List (Nonterminal × β)

namespace Table

variable {β γ : Type}

/-- What belongs to a nonterminal. -/
def get? (nt : Nonterminal) : Table β → Option β
  | [] => none
  | (k, b) :: t => if nt = k then some b else get? nt t

@[simp] theorem get?_nil (nt : Nonterminal) : get? nt ([] : Table β) = none := rfl

theorem get?_cons (nt k : Nonterminal) (b : β) (t : Table β) :
    get? nt ((k, b) :: t) = if nt = k then some b else get? nt t := rfl

/-- Nothing belongs to a nonterminal that has no pair. -/
theorem get?_eq_none_iff {nt : Nonterminal} {t : Table β} : get? nt t = none ↔ nt ∉ t.map Prod.fst := by
  induction t with
  | nil => simp
  | cons entry t ih =>
    obtain ⟨k, b⟩ := entry
    by_cases h : nt = k <;> simp [get?_cons, h, ih]

/-- What belongs to a nonterminal is in one of its pairs. -/
theorem mem_of_get?_eq_some {nt : Nonterminal} {b : β} {t : Table β} (h : get? nt t = some b) : (nt, b) ∈ t := by
  induction t with
  | nil => cases h
  | cons entry t ih =>
    obtain ⟨k, a⟩ := entry
    rw [get?_cons] at h
    split at h
    · rename_i hk
      rw [hk, Option.some.inj h]
      exact List.mem_cons_self
    · exact List.mem_cons_of_mem _ (ih h)

/-- Where no nonterminal has two pairs, the pairs are what can be looked up. -/
theorem get?_eq_some_iff {nt : Nonterminal} {b : β} {t : Table β} (hn : (t.map Prod.fst).Nodup) :
    get? nt t = some b ↔ (nt, b) ∈ t := by
  refine ⟨mem_of_get?_eq_some, fun h => ?_⟩
  induction t with
  | nil => cases h
  | cons entry t ih =>
    obtain ⟨k, a⟩ := entry
    obtain ⟨hk, ht⟩ := List.nodup_cons.1 hn
    rcases List.mem_cons.1 h with h | h
    · cases h
      rw [get?_cons, if_pos rfl]
    · have hne : nt ≠ k := fun he => hk (List.mem_map.2 ⟨_, h, he⟩)
      rw [get?_cons, if_neg hne, ih ht h]

/-- Pairs that come later count for a nonterminal that has none before. -/
theorem get?_append (nt : Nonterminal) (t u : Table β) : get? nt (t ++ u) = (get? nt t).or (get? nt u) := by
  induction t with
  | nil => simp
  | cons entry t ih =>
    obtain ⟨m, a⟩ := entry
    by_cases h : nt = m
    · simp [get?_cons, h]
    · simp [get?_cons, h, ih]

theorem get?_append_singleton (nt k : Nonterminal) (b : β) (t : Table β) :
    get? nt (t ++ [(k, b)]) = (get? nt t).or (if nt = k then some b else none) := by
  rw [get?_append, get?_cons, get?_nil]

/-- Looking up among nonterminals that are each paired with what a function gives. -/
theorem get?_map_pair (f : Nonterminal → β) (nts : List Nonterminal) (nt : Nonterminal) :
    get? nt (nts.map fun k => (k, f k)) = if nt ∈ nts then some (f nt) else none := by
  induction nts with
  | nil => rfl
  | cons k nts ih =>
    by_cases h : nt = k
    · simp [get?_cons, h]
    · simp [get?_cons, h, ih]

/-- What was exchanged everywhere is found exchanged. -/
theorem get?_map (f : Nonterminal → β → γ) (nt : Nonterminal) (t : Table β) :
    get? nt (t.map fun entry => (entry.1, f entry.1 entry.2)) = (get? nt t).map (f nt) := by
  induction t with
  | nil => rfl
  | cons entry t ih =>
    obtain ⟨k, b⟩ := entry
    by_cases h : nt = k <;> simp [get?_cons, h, ih]

/-- The pairs of a nonterminal are kept or dropped together. -/
theorem get?_filter (keep : Nonterminal → Bool) (nt : Nonterminal) (t : Table β) :
    get? nt (t.filter fun entry => keep entry.1) = if keep nt then get? nt t else none := by
  induction t with
  | nil => simp
  | cons entry t ih =>
    obtain ⟨k, b⟩ := entry
    by_cases hk : keep k = true
    · rw [List.filter_cons_of_pos (by simpa using hk), get?_cons, get?_cons, ih]
      by_cases h : nt = k
      · simp [h, hk]
      · simp [h]
    · rw [List.filter_cons_of_neg (by simpa using hk), ih, get?_cons]
      by_cases h : nt = k
      · simp [h, hk]
      · simp [h]

end Table

end TopDown
