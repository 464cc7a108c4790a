import TopDown.Alternatives
import TopDown.Table

/-!
# Rules

The rules of a grammar: each declared nonterminal with its alternatives, in order of declaration. A nonterminal that is declared
and has no alternative is an entry with an empty set, which is not the same as no entry.
-/

namespace TopDown

/-- The declared nonterminals, each once, with their alternatives. -/
@[ext] structure Rules where
  entries : Table Alternatives
  nodup : (entries.map Prod.fst).Nodup
deriving DecidableEq

namespace Rules

/-- No nonterminal is declared. -/
def empty : Rules := ⟨[], List.Pairwise.nil⟩

/-- The declared nonterminals in order. -/
def declared (r : Rules) : List Nonterminal := r.entries.map Prod.fst

/-- How many nonterminals are declared. -/
def size (r : Rules) : Nat := r.entries.length

/-- The alternatives of a declared nonterminal. -/
def get? (r : Rules) (nt : Nonterminal) : Option Alternatives := Table.get? nt r.entries

/-- Tells whether a nonterminal is declared. -/
def contains (r : Rules) (nt : Nonterminal) : Bool := (r.get? nt).isSome

/-- The productions of a nonterminal in order; an undeclared one has none. -/
def productionsOf (r : Rules) (nt : Nonterminal) : List Production := ((r.get? nt).getD .empty).toList

/-- All productions with their left-hand sides, in stored order. -/
def productions (r : Rules) : List (Nonterminal × Production) :=
  r.entries.flatMap fun entry => entry.2.toList.map fun p => (entry.1, p)

/-- How many productions there are. -/
def productionCount (r : Rules) : Nat := r.productions.length

/-- An entry with its alternatives exchanged, if it is the entry of `nt`. -/
def replaceEntry (nt : Nonterminal) (a : Alternatives) (entry : Nonterminal × Alternatives) : Nonterminal × Alternatives :=
  if entry.1 = nt then (nt, a) else entry

/-- Exchanging alternatives leaves the left-hand sides alone. -/
@[simp] theorem fst_replaceEntry (nt : Nonterminal) (a : Alternatives) (entry : Nonterminal × Alternatives) :
    (replaceEntry nt a entry).1 = entry.1 := by
  unfold replaceEntry
  split <;> simp_all

theorem map_fst_replaceEntry (nt : Nonterminal) (a : Alternatives) (l : List (Nonterminal × Alternatives)) :
    (l.map (replaceEntry nt a)).map Prod.fst = l.map Prod.fst := by
  simp [Function.comp_def]

/-- Adds an entry for a nonterminal that has none. -/
def append (r : Rules) (nt : Nonterminal) (a : Alternatives) (h : nt ∉ r.declared) : Rules where
  entries := r.entries ++ [(nt, a)]
  nodup := by
    rw [List.map_append, List.nodup_append]
    refine ⟨r.nodup, List.pairwise_singleton _ _, fun x hx y hy hxy => ?_⟩
    have : y = nt := by simpa using hy
    exact h (this ▸ hxy ▸ hx)

/-- Exchanges the alternatives of a declared nonterminal where it stands. -/
def replace (r : Rules) (nt : Nonterminal) (a : Alternatives) : Rules where
  entries := r.entries.map (replaceEntry nt a)
  nodup := by rw [map_fst_replaceEntry]; exact r.nodup

/-- Gives a nonterminal these alternatives. A declared one keeps its place, a new one comes last. -/
def set (r : Rules) (nt : Nonterminal) (a : Alternatives) : Rules :=
  if h : nt ∈ r.declared then r.replace nt a else r.append nt a h

/-- Declares a nonterminal, with no alternative yet if it is new. -/
def declare (r : Rules) (nt : Nonterminal) : Rules := if h : nt ∈ r.declared then r else r.append nt .empty h

/-- Exchanges the alternatives of every nonterminal where they stand. -/
def map (r : Rules) (f : Nonterminal → Alternatives → Alternatives) : Rules where
  entries := r.entries.map fun entry => (entry.1, f entry.1 entry.2)
  nodup := by simpa [Function.comp_def] using r.nodup

/-- The entries of the nonterminals that pass a test, in order. -/
def filter (r : Rules) (keep : Nonterminal → Bool) : Rules where
  entries := r.entries.filter fun entry => keep entry.1
  nodup := r.nodup.sublist (List.filter_sublist.map Prod.fst)

/-- Tells whether the same nonterminals are declared with the same alternatives, whatever the order. -/
def agrees (r s : Rules) : Bool :=
  s.declared.all r.contains && r.entries.all fun entry => (s.get? entry.1).any entry.2.agrees

/-- The rules of a list of entries, each given by left-hand side and productions; a repeated left-hand side is merged with
its first appearance. -/
def ofList (l : List (Nonterminal × List Production)) : Rules where
  entries := (distinct (l.map Prod.fst)).map fun nt =>
    (nt, Alternatives.ofList ((l.filter fun entry => entry.1 = nt).flatMap Prod.snd))
  nodup := by simpa [Function.comp_def] using nodup_distinct (l.map Prod.fst)

@[simp] theorem declared_empty : empty.declared = [] := rfl

@[simp] theorem declared_append (r : Rules) (nt : Nonterminal) (a : Alternatives) (h : nt ∉ r.declared) :
    (r.append nt a h).declared = r.declared ++ [nt] := by
  simp [declared, append]

@[simp] theorem declared_replace (r : Rules) (nt : Nonterminal) (a : Alternatives) :
    (r.replace nt a).declared = r.declared :=
  map_fst_replaceEntry nt a r.entries

@[simp] theorem declared_map (r : Rules) (f : Nonterminal → Alternatives → Alternatives) :
    (r.map f).declared = r.declared := by
  simp [declared, map, Function.comp_def]

/-- A nonterminal that is not declared only adds an entry at the end. -/
theorem entries_set {r : Rules} {nt : Nonterminal} (h : nt ∉ r.declared) (a : Alternatives) :
    (r.set nt a).entries = r.entries ++ [(nt, a)] := by
  rw [set, dif_neg h]
  rfl

/-- Whatever is set is declared afterwards, and nothing else is new. -/
theorem declared_set (r : Rules) (nt : Nonterminal) (a : Alternatives) :
    (r.set nt a).declared = if nt ∈ r.declared then r.declared else r.declared ++ [nt] := by
  unfold set
  split <;> simp

/-- A declared nonterminal keeps its place. -/
theorem entries_set_of_declared {r : Rules} {nt : Nonterminal} (h : nt ∈ r.declared) (a : Alternatives) :
    (r.set nt a).entries = r.entries.map (replaceEntry nt a) := by
  rw [set, dif_pos h]
  rfl

/-- Of alternatives that are set one after the other the last remain. -/
theorem set_set (r : Rules) (nt : Nonterminal) (a b : Alternatives) : (r.set nt a).set nt b = r.set nt b := by
  have hset : nt ∈ (r.set nt a).declared := by
    rw [declared_set]
    split <;> simp [*]
  refine Rules.ext ?_
  rw [entries_set_of_declared hset]
  by_cases hnt : nt ∈ r.declared
  · rw [entries_set_of_declared hnt, entries_set_of_declared hnt, List.map_map]
    refine List.map_congr_left fun entry _ => ?_
    by_cases he : entry.1 = nt <;> simp [replaceEntry, he]
  · have hother : ∀ entry ∈ r.entries, replaceEntry nt b entry = entry := by
      intro entry hentry
      refine if_neg fun he => hnt ?_
      exact List.mem_map.2 ⟨entry, hentry, he⟩
    rw [entries_set hnt, entries_set hnt, List.map_append, List.map_congr_left hother, List.map_id'']
    · simp [replaceEntry]
    · exact fun _ => rfl
/-- The declared nonterminals are those that have alternatives, if only an empty set. -/
theorem get?_eq_none_iff {r : Rules} {nt : Nonterminal} : r.get? nt = none ↔ nt ∉ r.declared := Table.get?_eq_none_iff

@[simp] theorem contains_eq_true_iff {r : Rules} {nt : Nonterminal} : r.contains nt = true ↔ nt ∈ r.declared := by
  rw [contains, Option.isSome_iff_ne_none, ne_eq, get?_eq_none_iff, Decidable.not_not]

/-- Looking up among entries one of which had its alternatives exchanged. -/
theorem get?_map_replaceEntry (nt m : Nonterminal) (a : Alternatives) (t : Table Alternatives) :
    Table.get? m (t.map (replaceEntry nt a)) = if m = nt then (Table.get? m t).map fun _ => a else Table.get? m t := by
  induction t with
  | nil => simp
  | cons entry t ih =>
    obtain ⟨k, b⟩ := entry
    by_cases hk : k = nt
    · by_cases hm : m = nt <;> simp [replaceEntry, Table.get?_cons, hk, hm, ih]
    · by_cases hm : m = k
      · simp [replaceEntry, Table.get?_cons, hk, hm]
      · simp [replaceEntry, Table.get?_cons, hk, hm, ih]

/-- What is set is found, and nothing else changes. -/
theorem get?_set (r : Rules) (nt m : Nonterminal) (a : Alternatives) :
    (r.set nt a).get? m = if m = nt then some a else r.get? m := by
  unfold set
  split
  · rename_i h
    rw [get?, replace, get?_map_replaceEntry]
    split
    · rename_i hm
      have hs : r.get? m ≠ none := fun hn => get?_eq_none_iff.1 hn (hm ▸ h)
      obtain ⟨b, hb⟩ := Option.ne_none_iff_exists'.1 hs
      rw [get?] at hb
      simp [hb]
    · rfl
  · rename_i h
    have hn := get?_eq_none_iff.2 h
    rw [get?] at hn
    rw [get?, append, Table.get?_append_singleton]
    by_cases hm : m = nt
    · subst hm
      simp [hn]
    · simp [hm, get?]

/-- The productions after some were set. -/
theorem productionsOf_set (r : Rules) (nt m : Nonterminal) (a : Alternatives) :
    (r.set nt a).productionsOf m = if m = nt then a.toList else r.productionsOf m := by
  rw [productionsOf, get?_set]
  split <;> rfl

theorem get?_map (r : Rules) (f : Nonterminal → Alternatives → Alternatives) (nt : Nonterminal) :
    (r.map f).get? nt = (r.get? nt).map (f nt) :=
  Table.get?_map f nt r.entries

theorem get?_filter (r : Rules) (keep : Nonterminal → Bool) (nt : Nonterminal) :
    (r.filter keep).get? nt = if keep nt then r.get? nt else none :=
  Table.get?_filter keep nt r.entries

/-- A nonterminal with a production is declared. -/
theorem mem_declared_of_mem_productionsOf {r : Rules} {nt : Nonterminal} {p : Production} (h : p ∈ r.productionsOf nt) :
    nt ∈ r.declared := by
  refine Decidable.byContradiction fun hd => ?_
  simp [productionsOf, get?_eq_none_iff.2 hd] at h

/-- The list of all productions holds those of each nonterminal. -/
theorem mem_productions {r : Rules} {nt : Nonterminal} {p : Production} :
    (nt, p) ∈ r.productions ↔ p ∈ r.productionsOf nt := by
  rw [productions, List.mem_flatMap, productionsOf]
  constructor
  · rintro ⟨⟨k, a⟩, he, hp⟩
    obtain ⟨q, hq, heq⟩ := List.mem_map.1 hp
    cases heq
    rw [get?, (Table.get?_eq_some_iff r.nodup).2 he]
    exact hq
  · intro hp
    cases h : r.get? nt with
    | none => simp [h] at hp
    | some a =>
      rw [h] at hp
      exact ⟨(nt, a), Table.mem_of_get?_eq_some h, List.mem_map.2 ⟨p, hp, rfl⟩⟩

/-- The entries are the declared nonterminals with their productions. -/
theorem entries_eq (r : Rules) : r.entries = r.declared.map fun nt => (nt, .ofList (r.productionsOf nt)) := by
  rw [declared, List.map_map]
  refine (List.map_id _).symm.trans (List.map_congr_left fun entry hentry => Prod.ext rfl ?_)
  have hget : r.get? entry.1 = some entry.2 := (Table.get?_eq_some_iff r.nodup).2 hentry
  simp [productionsOf, hget]

/-- Rules that declare the same nonterminals in the same order, with the same productions, are the same. -/
theorem ext_productionsOf {r s : Rules} (hdeclared : r.declared = s.declared)
    (hproductions : ∀ nt ∈ s.declared, r.productionsOf nt = s.productionsOf nt) : r = s := by
  refine Rules.ext ?_
  rw [r.entries_eq, s.entries_eq, hdeclared]
  exact List.map_congr_left fun nt hnt => by rw [hproductions nt hnt]

theorem nodup_productionsOf (r : Rules) (nt : Nonterminal) : (r.productionsOf nt).Nodup := ((r.get? nt).getD .empty).nodup

/-- The list of all productions goes through the declared nonterminals in order. -/
theorem productions_eq (r : Rules) :
    r.productions = r.declared.flatMap fun nt => (r.productionsOf nt).map fun p => (nt, p) := by
  have hsame : ∀ nt, distinct (r.productionsOf nt) = r.productionsOf nt := fun nt => distinct_eq_self (r.nodup_productionsOf nt)
  rw [productions, entries_eq, List.flatMap_map]
  simp only [Alternatives.toList_ofList, hsame]

end Rules

end TopDown
