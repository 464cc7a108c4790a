import TopDown.Nullable
import TopDown.Trimming

/-!
# Sweeping

What follows from productions, found by looking at all of them again and again. A nonterminal is found as soon as one of its
productions passes a test against what has been found before, so what comes later in the same sweep counts it already. Sweeps
go on until one finds nothing.
-/

namespace TopDown

/-- What has been found, in the order in which it was found, and whether the sweep has found any of it. -/
structure Sweep where
  found : List Nonterminal
  changed : Bool
deriving DecidableEq, Repr

namespace Sweep

/-- Looks at one production, unless its nonterminal was found. -/
def look (passes : List Nonterminal → Production → Bool) (s : Sweep) (rule : Nonterminal × Production) : Sweep :=
  if s.found.contains rule.1 then s
  else if passes s.found rule.2 then ⟨s.found ++ [rule.1], true⟩
  else s

/-- Looks at all productions in order. -/
def sweep (passes : List Nonterminal → Production → Bool) (rules : List (Nonterminal × Production))
    (found : List Nonterminal) : Sweep :=
  rules.foldl (look passes) ⟨found, false⟩

/-- Sweeps until one finds nothing; `none` when `limit` sweeps were not enough. -/
def run (passes : List Nonterminal → Production → Bool) (rules : List (Nonterminal × Production)) :
    (limit : Nat) → (found : List Nonterminal) → Option (List Nonterminal)
  | 0, _ => none
  | limit + 1, found =>
    let s := sweep passes rules found
    if s.changed then run passes rules limit s.found else some s.found

end Sweep

namespace Grammar

/-- The nullable nonterminals, found by sweeps: one is found when all symbols of one of its productions were. -/
def nullableBySweeps (g : Grammar) (limit : Nat) : Option (List Nonterminal) :=
  Sweep.run Production.isNullable g.rules.productions limit []

/-- The nonterminals that generate some word, found by sweeps: one is found when all nonterminals of one of its productions
were. -/
def productiveBySweeps (g : Grammar) (limit : Nat) : Option (List Nonterminal) :=
  Sweep.run Production.isWithin g.rules.productions limit []

end Grammar

end TopDown
