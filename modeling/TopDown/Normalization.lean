import TopDown.Factoring
import TopDown.LeftRecursion.Detection
import TopDown.LeftRecursion.Elimination
import TopDown.UnitRules

/-!
# Normalization

A grammar is made fit for top-down search by one of two routes. A left-recursive grammar loses its empty productions, unit
productions and useless symbols, and then its left recursion; if the empty word was in its language, a fresh start brings it
back. Any other grammar is factored. Either way useless symbols are trimmed at the end, so the grammar is refused when its
language is empty.
-/

namespace TopDown

/-- The way a grammar is normalized. -/
inductive Route where
  | leftRecursionRemoval | leftFactoring
deriving DecidableEq, Repr

/-- A route in words. -/
def Route.describe : Route → String
  | leftRecursionRemoval => "left recursion removal"
  | leftFactoring => "left factorization"

/-- A normalized grammar and the route by which it was reached. -/
structure Normalized where
  grammar : Grammar
  route : Route
deriving DecidableEq

namespace Grammar

/-- The grammar of the empty word alone, with the start and the names of `g`. -/
def onlyEmptyWord (g : Grammar) : Grammar := { g with rules := .ofList [(g.start, [[]])] }

/-- The grammar with the empty word added to its language, through a fresh start. -/
def withEmptyWord (g : Grammar) : Grammar :=
  { g.addFresh g.start [[.nonterminal g.start], []] with start := g.freshNonterminal }

/-- Tells whether the empty word is in the language. -/
def startNullable (g : Grammar) : Bool := g.nullable.contains g.start

/-- The grammar without empty and unit productions. -/
def reduced (g : Grammar) : Grammar := g.withoutEmpty.withoutUnits

/-- A grammar for the same language that is not left-recursive. When trimming finds that nothing is left but the empty word
was there, the empty word is the whole language. -/
def descending (g : Grammar) : Except Malformed Grammar :=
  match g.reduced.trimmed with
  | .ok clean => do
    let result ← clean.withoutLeftRecursion
    return if g.startNullable then result.withEmptyWord else result
  | .error cause =>
    if cause.kind = .startEliminated ∧ g.startNullable then .ok g.onlyEmptyWord else .error cause

/-- The route that a grammar takes. -/
def route (g : Grammar) : Route := if g.leftRecursive then .leftRecursionRemoval else .leftFactoring

/-- The grammar at the end of a route, before the last trimming. -/
def follow (g : Grammar) : Route → Except Malformed Grammar
  | .leftRecursionRemoval => g.descending
  | .leftFactoring => .ok g.factored

/-- A grammar for the same language, free of left recursion and of useless symbols. -/
def normalize (g : Grammar) : Except Malformed Normalized := do
  g.validate
  let route := g.route
  let followed ← g.follow route
  return ⟨← followed.trimmed, route⟩

end Grammar

end TopDown
