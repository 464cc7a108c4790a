import TopDown.Ascending
import TopDown.Table

/-!
# Names

How nonterminals are shown: a one-to-one table between some nonterminals and their names. The table is kept by ascending
nonterminal, so two tables with the same pairs are equal.
-/

namespace TopDown

/-- A one-to-one table of nonterminals and names. -/
@[ext] structure Names where
  entries : Table String
  sorted : Ascending.Sorted Prod.fst entries
  nodup : (entries.map Prod.snd).Nodup
deriving DecidableEq

namespace Names

/-- No nonterminal has a name. -/
def empty : Names := ⟨[], List.Pairwise.nil, List.Pairwise.nil⟩

/-- The name of a nonterminal. -/
def get? (n : Names) (nt : Nonterminal) : Option String := Table.get? nt n.entries

/-- The nonterminal that has a name. -/
def find? (n : Names) (name : String) : Option Nonterminal := (n.entries.find? fun entry => entry.2 = name).map Prod.fst

/-- Tells whether a name is in use. -/
def uses (n : Names) (name : String) : Bool := (n.entries.map Prod.snd).contains name

/-- The nonterminals that have a name, ascending. -/
def named (n : Names) : List Nonterminal := n.entries.map Prod.fst

/-- The pairs that stay when a pair is inserted: those that share neither side with it. -/
def apartFrom (n : Names) (nt : Nonterminal) (name : String) : Table String :=
  n.entries.filter fun entry => entry.1 ≠ nt ∧ entry.2 ≠ name

/-- The pairs that stay do not have the new nonterminal. -/
theorem fst_ne_of_mem_apartFrom {n : Names} {nt : Nonterminal} {name : String} {entry : Nonterminal × String}
    (h : entry ∈ n.apartFrom nt name) : entry.1 ≠ nt := by
  have := (List.mem_filter.1 h).2
  simp only [decide_eq_true_eq] at this
  exact this.1

/-- The pairs that stay do not have the new name. -/
theorem snd_ne_of_mem_apartFrom {n : Names} {nt : Nonterminal} {name : String} {entry : Nonterminal × String}
    (h : entry ∈ n.apartFrom nt name) : entry.2 ≠ name := by
  have := (List.mem_filter.1 h).2
  simp only [decide_eq_true_eq] at this
  exact this.2

/-- Gives a nonterminal a name. To stay one-to-one the table loses the pairs that share the nonterminal or the name. -/
def insert (n : Names) (nt : Nonterminal) (name : String) : Names where
  entries := Ascending.insert Prod.fst (nt, name) (n.apartFrom nt name)
  sorted := Ascending.sorted_insert _ (n.sorted.filter _)
  nodup := by
    refine ((Ascending.insert_perm fun _ h => fst_ne_of_mem_apartFrom h).map Prod.snd).nodup_iff.2 ?_
    refine List.nodup_cons.2 ⟨fun h => ?_, n.nodup.sublist (List.filter_sublist.map Prod.snd)⟩
    obtain ⟨entry, he, hn⟩ := List.mem_map.1 h
    exact snd_ne_of_mem_apartFrom he hn

/-- A name that is not in use, for a nonterminal after all that have one, only adds a pair at the end. -/
theorem entries_insert {n : Names} {nt : Nonterminal} {name : String} (hnt : ∀ m ∈ n.named, m < nt)
    (hname : n.uses name = false) : (n.insert nt name).entries = n.entries ++ [(nt, name)] := by
  have hbefore : ∀ entry ∈ n.entries, entry.1 < nt := fun entry he => hnt entry.1 (List.mem_map.2 ⟨entry, he, rfl⟩)
  have hapart : n.apartFrom nt name = n.entries := by
    refine List.filter_eq_self.2 fun entry he => ?_
    have hother : entry.2 ≠ name := fun hentry => by
      rw [uses, List.contains_eq_mem, decide_eq_false_iff_not] at hname
      exact hname (List.mem_map.2 ⟨entry, he, hentry⟩)
    simp [Nat.ne_of_lt (hbefore entry he), hother]
  have hinsert : (n.insert nt name).entries = Ascending.insert Prod.fst (nt, name) (n.apartFrom nt name) := rfl
  rw [hinsert, hapart]
  exact Ascending.insert_eq_concat hbefore

/-- Looking up in a table into which a pair was put whose nonterminal it did not have. -/
theorem get?_ascendingInsert {nt m : Nonterminal} {name : String} {t : Table String} (h : ∀ entry ∈ t, entry.1 ≠ nt) :
    Table.get? m (Ascending.insert Prod.fst (nt, name) t) = if m = nt then some name else Table.get? m t := by
  induction t with
  | nil => rw [Ascending.insert, Table.get?_cons]
  | cons entry t ih =>
    obtain ⟨k, b⟩ := entry
    have hk : k ≠ nt := h _ List.mem_cons_self
    unfold Ascending.insert
    split
    · rw [Table.get?_cons]
    · split
      · rename_i he
        exact absurd he.symm hk
      · rw [Table.get?_cons, Table.get?_cons, ih fun x hx => h x (List.mem_cons_of_mem _ hx)]
        by_cases hm : m = k
        · simp [hm, hk]
        · simp [hm]

/-- Looking up among the pairs that stay. -/
theorem get?_filter_apart {nt m : Nonterminal} (name : String) (hm : m ≠ nt) {t : Table String}
    (hs : Ascending.Sorted Prod.fst t) :
    Table.get? m (t.filter fun entry => entry.1 ≠ nt ∧ entry.2 ≠ name) =
      if Table.get? m t = some name then none else Table.get? m t := by
  induction t with
  | nil => simp
  | cons entry t ih =>
    obtain ⟨k, b⟩ := entry
    obtain ⟨hlt, hl⟩ := List.pairwise_cons.1 hs
    by_cases hk : m = k
    · subst hk
      by_cases hb : b = name
      · subst hb
        rw [List.filter_cons_of_neg (by simp), Table.get?_cons, if_pos rfl, if_pos rfl]
        refine Table.get?_eq_none_iff.2 fun h => ?_
        obtain ⟨entry, he, rfl⟩ := List.mem_map.1 h
        exact Nat.lt_irrefl _ (hlt entry (List.mem_filter.1 he).1)
      · simp [Table.get?_cons, hb, hm]
    · have := ih hl
      by_cases hkeep : k ≠ nt ∧ b ≠ name
      · rw [List.filter_cons_of_pos (by simpa using hkeep), Table.get?_cons, Table.get?_cons, if_neg hk, if_neg hk, this]
      · rw [List.filter_cons_of_neg (by simpa using hkeep), Table.get?_cons, if_neg hk, this]

/-- The new name is found, the pair that had the name is gone, and nothing else changes. -/
theorem get?_insert (n : Names) (nt m : Nonterminal) (name : String) :
    (n.insert nt name).get? m =
      if m = nt then some name else if n.get? m = some name then none else n.get? m := by
  rw [get?, insert, get?_ascendingInsert fun _ h => fst_ne_of_mem_apartFrom h]
  split
  · rfl
  · rename_i hm
    exact get?_filter_apart name hm n.sorted

/-- The table after inserting pairs one after the other. -/
def ofList (pairs : Table String) : Names := pairs.foldl (fun n pair => n.insert pair.1 pair.2) empty

end Names

end TopDown
