import TopDown.LeftRecursion.Detection
import TopDown.Sweeping

/-!
# Left recursion by depth-first search

Another way to find left recursion: from each nonterminal in turn the leading nonterminals are followed in depth, and there is
left recursion when one is met again that the search is still inside of. What the search has left is marked and not followed
again, from whichever nonterminal it was met.
-/

namespace TopDown

/-- The nonterminals that a search is inside of, and those that it has left. -/
structure Marks where
  visiting : List Nonterminal
  done : List Nonterminal
deriving DecidableEq, Repr

namespace Marks

/-- Nothing was visited. -/
def start : Marks := ⟨[], []⟩

/-- The search goes into a nonterminal. -/
def enter (m : Marks) (nt : Nonterminal) : Marks := { m with visiting := nt :: m.visiting }

/-- The search comes out of a nonterminal. -/
def leave (m : Marks) (nt : Nonterminal) : Marks := ⟨m.visiting.erase nt, nt :: m.done⟩

end Marks

/-- How a visit ends. -/
inductive Visit where
  /-- A nonterminal was met that the search is inside of. -/
  | cycle
  /-- None was met, and these are the marks now. -/
  | clear (marks : Marks)
deriving DecidableEq, Repr

namespace Visit

/-- Visits the nonterminals of a list in turn, less those that the search has left, until one is met that it is inside of. -/
def follow (visit : Marks → Nonterminal → Option Visit) : Marks → List Nonterminal → Option Visit
  | m, [] => some (.clear m)
  | m, lead :: leads =>
    if m.visiting.contains lead then some .cycle
    else if m.done.contains lead then follow visit m leads
    else
      match visit m lead with
      | some (.clear m) => follow visit m leads
      | stopped => stopped

/-- Visits a nonterminal and what it leads to, `depth` deep at most; `none` when that is not deep enough. -/
def run (next : Nonterminal → List Nonterminal) : (depth : Nat) → Marks → Nonterminal → Option Visit
  | 0, _, _ => none
  | depth + 1, m, nt =>
    match follow (run next depth) (m.enter nt) (next nt) with
    | some (.clear m) => some (.clear (m.leave nt))
    | stopped => stopped

/-- Visits from one nonterminal after the other, less those that were left before, and tells whether one visit met a cycle. -/
def anyCycle (visit : Marks → Nonterminal → Option Visit) : Marks → List Nonterminal → Option Bool
  | _, [] => some false
  | m, nt :: nts =>
    if m.done.contains nt then anyCycle visit m nts
    else
      match visit m nt with
      | some (.clear m) => anyCycle visit m nts
      | some .cycle => some true
      | none => none

end Visit

namespace Grammar

/-- Tells whether some nonterminal can derive something that begins with itself: the nullable nonterminals are found by sweeps,
and then the leading ones are followed in depth. There are no more sweeps than `limit`, and the search gets no deeper. -/
def leftRecursiveByVisits (g : Grammar) (limit : Nat) : Option Bool := do
  let nullable ← g.nullableBySweeps limit
  Visit.anyCycle (Visit.run (g.leadingNonterminals nullable) limit) .start g.declared

end Grammar

end TopDown
