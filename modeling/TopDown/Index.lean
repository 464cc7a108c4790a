import TopDown.Table

/-!
# Indexes

A table arranged for looking up: a binary tree in which the digits of a nonterminal, the lowest first, are the way to what
belongs to it. No way is longer than the number has binary digits. An index of which only the ways matter is a set.

Main statement: the index of a table finds what the table holds (`get?_ofTable`).
-/

namespace TopDown

/-- The binary digits of a number, the lowest first, `true` for one; `fuel` of them at most. The last digit is a one. -/
def binaryDigitsFrom : (fuel n : Nat) → List Bool
  | 0, _ => []
  | fuel + 1, n => if n = 0 then [] else (n % 2 == 1) :: binaryDigitsFrom fuel (n / 2)

/-- The binary digits of a number, the lowest first. A number has no more digits than its value. -/
def binaryDigits (n : Nat) : List Bool := binaryDigitsFrom n n

/-- The number that has these binary digits. -/
def ofBinaryDigits : List Bool → Nat
  | [] => 0
  | d :: ds => 2 * ofBinaryDigits ds + d.toNat

/-- The digits of a number give the number back. -/
theorem ofBinaryDigits_binaryDigitsFrom (fuel : Nat) {n : Nat} (h : n ≤ fuel) :
    ofBinaryDigits (binaryDigitsFrom fuel n) = n := by
  induction fuel generalizing n with
  | zero => exact (Nat.le_zero.1 h).symm
  | succ fuel ih =>
    unfold binaryDigitsFrom
    split
    · rename_i h0
      exact h0.symm
    · have hd := Nat.mod_two_eq_zero_or_one n
      rw [ofBinaryDigits, ih (by omega)]
      rcases hd with hd | hd <;> simp [hd] <;> omega

/-- Numbers with the same digits are equal. -/
theorem binaryDigits_inj {m n : Nat} : binaryDigits m = binaryDigits n ↔ m = n := by
  refine ⟨fun h => ?_, fun h => h ▸ rfl⟩
  rw [← ofBinaryDigits_binaryDigitsFrom m (Nat.le_refl m), ← ofBinaryDigits_binaryDigitsFrom n (Nat.le_refl n)]
  exact congrArg ofBinaryDigits h

/-- A tree of values: the way to each is a list of digits. -/
inductive Index (β : Type) where
  | empty
  | node (value : Option β) (zero one : Index β)

namespace Index

variable {β : Type}

/-- The value at the root. -/
def value? : Index β → Option β
  | empty => none
  | node value _ _ => value

/-- The tree after a digit. -/
def child : Index β → Bool → Index β
  | empty, _ => empty
  | node _ zero _, false => zero
  | node _ _ one, true => one

/-- The value at the end of a way. -/
def find? (i : Index β) : List Bool → Option β
  | [] => i.value?
  | d :: ds => (i.child d).find? ds

/-- Puts a value at the end of a way. -/
def put (b : β) : List Bool → Index β → Index β
  | [], i => node (some b) (i.child false) (i.child true)
  | false :: ds, i => node i.value? (put b ds (i.child false)) (i.child true)
  | true :: ds, i => node i.value? (i.child false) (put b ds (i.child true))

/-- No way through the empty tree ends at a value. -/
theorem find?_empty (ds : List Bool) : (empty : Index β).find? ds = none := by
  induction ds with
  | nil => rfl
  | cons d ds ih => cases d <;> exact ih

/-- What is put at the end of a way is found there, and all else as before. -/
theorem find?_put (b : β) (ds es : List Bool) (i : Index β) :
    (put b ds i).find? es = if es = ds then some b else i.find? es := by
  induction ds generalizing i es with
  | nil =>
    cases es with
    | nil => rfl
    | cons e es => cases e <;> simp [put, find?, child]
  | cons d ds ih =>
    cases es with
    | nil => cases d <;> simp [put, find?, value?]
    | cons e es => cases d <;> cases e <;> simp [put, find?, child, ih]

/-- What belongs to a nonterminal. -/
def get? (i : Index β) (nt : Nonterminal) : Option β := i.find? (binaryDigits nt)

/-- Gives a nonterminal what belongs to it. -/
def insert (i : Index β) (nt : Nonterminal) (b : β) : Index β := i.put b (binaryDigits nt)

@[simp] theorem get?_empty (nt : Nonterminal) : (empty : Index β).get? nt = none := find?_empty _

theorem get?_insert (i : Index β) (m nt : Nonterminal) (b : β) :
    (i.insert nt b).get? m = if m = nt then some b else i.get? m := by
  simp only [get?, insert, find?_put, binaryDigits_inj]

/-- The index of a table. Where a nonterminal has two pairs, the first counts. -/
def ofTable (t : Table β) : Index β := t.foldr (fun entry i => i.insert entry.1 entry.2) empty

/-- The index of a table finds what the table holds. -/
theorem get?_ofTable (t : Table β) (nt : Nonterminal) : (ofTable t).get? nt = Table.get? nt t := by
  induction t with
  | nil => exact get?_empty nt
  | cons entry t ih =>
    obtain ⟨k, b⟩ := entry
    have ih : get? (t.foldr (fun entry i => i.insert entry.1 entry.2) empty) nt = Table.get? nt t := ih
    rw [ofTable, List.foldr_cons, get?_insert, ih, Table.get?_cons]

/-- The list that belongs to a nonterminal, the empty one if nothing does. -/
def listOf (i : Index (List β)) (nt : Nonterminal) : List β := (i.get? nt).getD []

/-! ## Sets -/

/-- Tells whether a nonterminal is in a set. -/
def contains (i : Index Unit) (nt : Nonterminal) : Bool := (i.get? nt).isSome

/-- A set with some more members. -/
def insertAll (i : Index Unit) (nts : List Nonterminal) : Index Unit := nts.foldr (fun nt i => i.insert nt ()) i

@[simp] theorem contains_empty (nt : Nonterminal) : (empty : Index Unit).contains nt = false := by
  simp [contains]

/-- The members of a set after some were added. -/
theorem contains_insertAll (i : Index Unit) (nts : List Nonterminal) (m : Nonterminal) :
    (i.insertAll nts).contains m = true ↔ m ∈ nts ∨ i.contains m = true := by
  induction nts with
  | nil => simp [insertAll]
  | cons nt nts ih =>
    have ih : contains (nts.foldr (fun nt i => i.insert nt ()) i) m = true ↔ m ∈ nts ∨ i.contains m = true := ih
    rw [insertAll, List.foldr_cons, contains, get?_insert, List.mem_cons]
    split
    · rename_i h
      simp [h]
    · rename_i h
      simp only [h, false_or]
      exact ih

end Index

end TopDown
