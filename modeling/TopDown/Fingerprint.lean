import TopDown.Distinct
import TopDown.Index

/-!
# Fingerprints

First appearances of productions, found without comparing every two of them: a production is compared only with those before it
that have the same fingerprint, a small number made from its symbols.

Main statement: the fingerprint decides nothing but the effort (`distinctBy_eq_distinct`).
-/

namespace TopDown

section

variable {α : Type}

/-- What is held under its key after one more member. -/
theorem mem_listOf_insert {key : α → Nat} {seen : Index (List α)} {a b : α} :
    b ∈ (seen.insert (key a) (a :: seen.listOf (key a))).listOf (key b) ↔ b = a ∨ b ∈ seen.listOf (key b) := by
  rw [Index.listOf, Index.get?_insert]
  split
  · rename_i h
    simp [h]
  · rename_i h
    rw [← Index.listOf]
    have hne : b ≠ a := fun hba => h (hba ▸ rfl)
    simp [hne]

variable [DecidableEq α]

/-- The members of a list in order of first appearance, less those that `seen` holds under their keys. -/
def distinctByFrom (key : α → Nat) : (seen : Index (List α)) → List α → List α
  | _, [] => []
  | seen, a :: l =>
    let bucket := seen.listOf (key a)
    if bucket.contains a then distinctByFrom key seen l
    else a :: distinctByFrom key (seen.insert (key a) (a :: bucket)) l

/-- The members of a list in order of first appearance. Only members with the same key are compared. -/
def distinctBy (key : α → Nat) (l : List α) : List α := distinctByFrom key .empty l

/-- The members that `seen` holds are left out, and the others are those of the plain list of first appearances. -/
theorem distinctByFrom_eq_filter (key : α → Nat) (seen : Index (List α)) (l : List α) :
    distinctByFrom key seen l = (distinct l).filter fun b => !(seen.listOf (key b)).contains b := by
  induction l generalizing seen with
  | nil => rfl
  | cons a l ih =>
    simp only [distinctByFrom, distinct]
    split
    · rename_i h
      rw [ih, List.filter_cons_of_neg (by simpa using h), List.filter_filter]
      refine List.filter_congr fun b _ => ?_
      by_cases hb : b = a
      · simpa [hb] using h
      · simp [hb]
    · rename_i h
      rw [ih, List.filter_cons_of_pos (by simpa using h), List.filter_filter]
      refine congrArg _ (List.filter_congr fun b _ => ?_)
      by_cases hb : b = a <;> simp [mem_listOf_insert, hb]

/-- The key decides nothing but the effort. -/
theorem distinctBy_eq_distinct (key : α → Nat) (l : List α) : distinctBy key l = distinct l := by
  rw [distinctBy, distinctByFrom_eq_filter]
  exact List.filter_eq_self.2 fun b _ => by simp [Index.listOf]

end

/-- A number for a symbol. -/
def Symbol.code : Symbol → Nat
  | nonterminal id => 2 * id
  | terminal char => 2 * char.toNat + 1

/-- A number that different productions seldom share. -/
def Production.fingerprint (p : Production) : Nat := p.foldl (fun n s => (n * 257 + s.code) % 65521) 1

/-- The productions of a list in order of first appearance. -/
def distinctProductions (ps : List Production) : List Production := distinctBy Production.fingerprint ps

/-- They are those of the plain list of first appearances. -/
@[simp] theorem distinctProductions_eq_distinct (ps : List Production) : distinctProductions ps = distinct ps :=
  distinctBy_eq_distinct _ ps

end TopDown
