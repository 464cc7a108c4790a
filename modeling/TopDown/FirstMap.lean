import TopDown.Leading
import TopDown.Sweeping

/-!
# FIRST by sweeps, and the prediction table

Another way to the prediction table. The characters of a grammar stand in a list, and FIRST of a nonterminal is a set of places in
it. All productions are looked at again and again, each time with what is known so far, until FIRST of no nonterminal gets larger.
Then every production is put on the list of each character that it can begin with; the productions that can vanish join every list
of their nonterminal, and the list is sorted and freed of repetitions. A character without a list of its own has the productions
that can vanish.
-/

namespace TopDown

/-! ## Sets of places -/

/-- A set of places, ascending, with the places of another added. -/
def Places.union (known more : List Nat) : List Nat := more.foldl (fun places place => Ascending.insert id place places) known

/-- What belongs to a nonterminal is exchanged, or comes at the end if there was nothing. -/
def Table.put {β : Type} (nt : Nonterminal) (b : β) : Table β → Table β
  | [] => [(nt, b)]
  | (k, a) :: t => if nt = k then (k, b) :: t else (k, a) :: put nt b t

/-- The set that belongs to a nonterminal, if any does. -/
def placesOf (first : Table (List Nat)) (nt : Nonterminal) : List Nat := (Table.get? nt first).getD []

/-- The places of the characters that a production can begin with, as far as FIRST is known, added to a set. -/
def Production.firstPlaces (terminals : List Char) (nullable : List Nonterminal) (first : Table (List Nat)) :
    (places : List Nat) → Production → List Nat
  | places, [] => places
  | places, .terminal c :: _ =>
    match terminals.idxOf? c with
    | some place => Ascending.insert id place places
    | none => places
  | places, .nonterminal nt :: p =>
    let places := Places.union places (placesOf first nt)
    if nullable.contains nt then firstPlaces terminals nullable first places p else places

/-- The characters that a production can begin with, as far as FIRST is known, in the order of their places. -/
def Production.firstCharacters (terminals : List Char) (nullable : List Nonterminal) (first : Table (List Nat)) (p : Production) :
    List Char :=
  (firstPlaces terminals nullable first [] p).filterMap fun place => terminals[place]?

/-! ## Sweeps -/

/-- FIRST as far as it is known, and whether the sweep has found any of it. -/
structure FirstSweep where
  first : Table (List Nat)
  changed : Bool
deriving DecidableEq, Repr

namespace FirstSweep

/-- Looks at one production, which can make FIRST of its nonterminal larger. -/
def look (terminals : List Char) (nullable : List Nonterminal) (s : FirstSweep) (rule : Nonterminal × Production) :
    FirstSweep :=
  let before := placesOf s.first rule.1
  let after := Places.union before (Production.firstPlaces terminals nullable s.first [] rule.2)
  ⟨Table.put rule.1 after s.first, s.changed || after.length != before.length⟩

/-- Looks at all productions in order. -/
def sweep (terminals : List Char) (nullable : List Nonterminal) (rules : List (Nonterminal × Production))
    (first : Table (List Nat)) : FirstSweep :=
  rules.foldl (look terminals nullable) ⟨first, false⟩

/-- Sweeps until one finds nothing; `none` when `limit` sweeps were not enough. -/
def run (terminals : List Char) (nullable : List Nonterminal) (rules : List (Nonterminal × Production)) :
    (limit : Nat) → (first : Table (List Nat)) → Option (Table (List Nat))
  | 0, _ => none
  | limit + 1, first =>
    let s := sweep terminals nullable rules first
    if s.changed then run terminals nullable rules limit s.first else some s.first

end FirstSweep

/-! ## Lists of productions -/

/-- Puts a number at the end of the list of a character. -/
def enlist (c : Char) (i : Nat) : List (Char × List Nat) → List (Char × List Nat)
  | [] => [(c, [i])]
  | (d, list) :: lists => if c = d then (d, list ++ [i]) :: lists else (d, list) :: enlist c i lists

/-- A list without the members that are equal to the one before them. -/
def withoutRepetitions : List Nat → List Nat
  | a :: b :: l => if a = b then withoutRepetitions (b :: l) else a :: withoutRepetitions (b :: l)
  | l => l

/-- The places of what a list of truth values tells to be true, in order. -/
def places (flags : List Bool) : List Nat := (flags.zipIdx.filter Prod.fst).map Prod.snd

/-- What is known about the nonterminals of a grammar: FIRST, as places in the list of all characters; which of them and of their
productions can vanish; and which productions are worth trying before a character and at the end of the input. -/
structure FirstMap where
  terminals : List Char
  first : Table (List Nat)
  nullable : List Nonterminal
  nullableProductions : Table (List Bool)
  predict : List ((Nonterminal × Char) × List Nat)
  vanishing : Table (List Nat)
deriving DecidableEq, Repr

namespace FirstMap

/-- The places of the productions worth trying before the next character, `none` for the end of the input. -/
def candidates (m : FirstMap) (nt : Nonterminal) (next : Option Char) : List Nat :=
  let vanishing := placesOf m.vanishing nt
  match next with
  | some c => (m.predict.lookup (nt, c)).getD vanishing
  | none => vanishing

/-- The characters that a nonterminal can begin with, ascending. -/
def firstOf (m : FirstMap) (nt : Nonterminal) : List Char :=
  Ascending.ofList Char.toNat ((placesOf m.first nt).filterMap fun place => m.terminals[place]?)

/-- Tells whether a nonterminal can vanish. -/
def isNullable (m : FirstMap) (nt : Nonterminal) : Bool := m.nullable.contains nt

/-- Tells whether the production of a nonterminal at a place exists and can vanish. -/
def productionNullable (m : FirstMap) (nt : Nonterminal) (index : Nat) : Bool :=
  ((Table.get? nt m.nullableProductions).bind fun flags => flags[index]?).getD false

end FirstMap

namespace Grammar

/-- FIRST of every declared nonterminal, found by sweeps from empty sets. -/
def firstBySweeps (g : Grammar) (nullable : List Nonterminal) (limit : Nat) : Option (Table (List Nat)) :=
  FirstSweep.run g.terminals nullable g.rules.productions limit (g.declared.map fun nt => (nt, []))

/-- The lists of the characters that productions can begin with. -/
def listsOf (g : Grammar) (nullable : List Nonterminal) (first : Table (List Nat)) (ps : List Production) :
    List (Char × List Nat) :=
  ps.zipIdx.foldl (fun lists entry =>
    (Production.firstCharacters g.terminals nullable first entry.1).foldl (fun lists c => enlist c entry.2 lists) lists) []

/-- All tables, when it is known which nonterminals can vanish and what they can begin with. -/
def tabulate (g : Grammar) (nullable : List Nonterminal) (first : Table (List Nat)) : FirstMap :=
  let flagsOf (a : Alternatives) := a.toList.map (Production.isNullable nullable)
  { terminals := g.terminals
    first
    nullable
    nullableProductions := g.rules.entries.map fun entry => (entry.1, flagsOf entry.2)
    predict := g.rules.entries.flatMap fun entry =>
      (g.listsOf nullable first entry.2.toList).map fun list =>
        ((entry.1, list.1), withoutRepetitions ((list.2 ++ places (flagsOf entry.2)).mergeSort (· ≤ ·)))
    vanishing := g.rules.entries.map fun entry => (entry.1, places (flagsOf entry.2)) }

/-- Everything that is known about the nonterminals of a grammar, by no more than `limit` sweeps for each of the two sets that
sweeps find. -/
def firstMap (g : Grammar) (limit : Nat) : Option FirstMap := do
  let nullable ← g.nullableBySweeps limit
  let first ← g.firstBySweeps nullable limit
  return g.tabulate nullable first

end Grammar

end TopDown
