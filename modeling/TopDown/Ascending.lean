/-!
# Ascending lists

Lists kept in strictly ascending order of a numeric key. They are the canonical form of a finite set of numbers or characters,
and of a finite map from numbers: two of them with the same members are equal.
-/

namespace TopDown.Ascending

variable {α : Type}

/-- The keys of the list strictly ascend. -/
def Sorted (key : α → Nat) (l : List α) : Prop := l.Pairwise fun a b => key a < key b

/-- Puts `a` where its key belongs; a member with the same key is replaced. -/
def insert (key : α → Nat) (a : α) : List α → List α
  | [] => [a]
  | b :: l =>
    if key a < key b then a :: b :: l
    else if key a = key b then a :: l
    else b :: insert key a l

/-- The members of a list by ascending key, one for each key. -/
def ofList (key : α → Nat) (l : List α) : List α := l.foldr (insert key) []

/-- What stands in the list after an insertion was there before or is the new member. -/
theorem mem_of_mem_insert {key : α → Nat} {a x : α} {l : List α} (h : x ∈ insert key a l) : x = a ∨ x ∈ l := by
  induction l with
  | nil => exact Or.inl (List.mem_singleton.1 h)
  | cons b l ih =>
    unfold insert at h
    split at h
    · simpa using h
    · split at h
      · rcases List.mem_cons.1 h with h | h
        · exact Or.inl h
        · exact Or.inr (List.mem_cons_of_mem _ h)
      · rcases List.mem_cons.1 h with h | h
        · exact Or.inr (h ▸ List.mem_cons_self)
        · exact (ih h).imp id (List.mem_cons_of_mem _)

/-- Where different members have different keys, an insertion loses nothing. -/
theorem mem_insert_iff {key : α → Nat} (hkey : ∀ a b, key a = key b → a = b) {a x : α} {l : List α} :
    x ∈ insert key a l ↔ x = a ∨ x ∈ l := by
  refine ⟨mem_of_mem_insert, fun h => ?_⟩
  induction l with
  | nil => simpa [insert] using h
  | cons b l ih =>
    unfold insert
    split
    · simpa using h
    · split
      · rename_i hab
        cases hkey a b hab
        simpa using h
      · rcases h with h | h
        · exact List.mem_cons_of_mem b (ih (Or.inl h))
        · rcases List.mem_cons.1 h with rfl | h
          · exact List.mem_cons_self
          · exact List.mem_cons_of_mem b (ih (Or.inr h))

/-- Where different members have different keys, the list made from a list has the same members. -/
theorem mem_ofList_iff {key : α → Nat} (hkey : ∀ a b, key a = key b → a = b) {x : α} {l : List α} :
    x ∈ ofList key l ↔ x ∈ l := by
  induction l with
  | nil => simp [ofList]
  | cons a l ih =>
    have hm := mem_insert_iff hkey (a := a) (x := x) (l := ofList key l)
    rw [List.mem_cons, ← ih]
    exact hm

@[simp] theorem mem_ofList_id_iff {n : Nat} {l : List Nat} : n ∈ ofList id l ↔ n ∈ l := mem_ofList_iff fun _ _ h => h

/-- An insertion keeps the keys strictly ascending. -/
theorem sorted_insert {key : α → Nat} {l : List α} (a : α) (h : Sorted key l) : Sorted key (insert key a l) := by
  induction l with
  | nil => exact List.pairwise_singleton _ _
  | cons b l ih =>
    obtain ⟨hb, hl⟩ := List.pairwise_cons.1 h
    unfold insert
    split
    · rename_i hab
      refine List.Pairwise.cons (fun x hx => ?_) h
      rcases List.mem_cons.1 hx with rfl | hx
      · exact hab
      · exact Nat.lt_trans hab (hb x hx)
    · split
      · rename_i hab
        exact List.Pairwise.cons (fun x hx => hab ▸ hb x hx) hl
      · refine List.Pairwise.cons (fun x hx => ?_) (ih hl)
        rcases mem_of_mem_insert hx with rfl | hx
        · omega
        · exact hb x hx

/-- Where no member has the new key, an insertion only adds. -/
theorem insert_perm {key : α → Nat} {a : α} {l : List α} (h : ∀ b ∈ l, key b ≠ key a) :
    (insert key a l).Perm (a :: l) := by
  induction l with
  | nil => exact List.Perm.refl _
  | cons b l ih =>
    unfold insert
    split
    · exact List.Perm.refl _
    · split
      · rename_i hab
        exact absurd hab.symm (h b List.mem_cons_self)
      · exact ((ih fun x hx => h x (List.mem_cons_of_mem _ hx)).cons b).trans (List.Perm.swap a b l)

/-- A member with a larger key than all others comes last. -/
theorem insert_eq_concat {key : α → Nat} {a : α} {l : List α} (h : ∀ b ∈ l, key b < key a) : insert key a l = l ++ [a] := by
  induction l with
  | nil => rfl
  | cons b l ih =>
    obtain ⟨hb, hl⟩ := List.forall_mem_cons.1 h
    unfold insert
    rw [if_neg (by omega), if_neg (by omega), ih hl, List.cons_append]

/-- The list made from any list ascends. -/
theorem sorted_ofList (key : α → Nat) (l : List α) : Sorted key (ofList key l) := by
  induction l with
  | nil => exact List.Pairwise.nil
  | cons a l ih => exact sorted_insert a ih

theorem Sorted.nodup {key : α → Nat} {l : List α} (h : Sorted key l) : l.Nodup := by
  refine List.Pairwise.imp (fun {a b} (hab : key a < key b) (he : a = b) => ?_) h
  subst he
  exact Nat.lt_irrefl _ hab

/-- Two ascending lists with the same members are equal. -/
theorem Sorted.eq_of_mem_iff {key : α → Nat} {l m : List α} (hl : Sorted key l) (hm : Sorted key m)
    (h : ∀ a, a ∈ l ↔ a ∈ m) : l = m := by
  have hperm : l.Perm m := (List.perm_ext_iff_of_nodup hl.nodup hm.nodup).2 h
  exact hperm.eq_of_pairwise (fun a b _ _ hab hba => absurd hab (Nat.lt_asymm hba)) hl hm

theorem nodup_ofList (key : α → Nat) (l : List α) : (ofList key l).Nodup := (sorted_ofList key l).nodup

end TopDown.Ascending
