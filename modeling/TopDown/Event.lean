import TopDown.Normalization
import TopDown.Recognizer
import TopDown.Text.Quoted

/-!
# Events

What is worth telling about a transformation or a search while it happens. The transformations themselves tell nothing: what
there is to tell about one can be read off what it was given and what it made.
-/

namespace TopDown

/-- How much an event matters. -/
inductive Level where
  | info | debug | trace
deriving DecidableEq, Repr

/-- Something worth telling. -/
inductive Event where
  /-- Useless nonterminals were trimmed. -/
  | trimmed (before after : Nat)
  /-- Empty productions were removed. -/
  | emptyRemoved (nullable before after : Nat)
  /-- Unit productions were removed. -/
  | unitsRemoved (before after : Nat)
  /-- A nonterminal lost its direct left recursion and got a tail. -/
  | tailIntroduced (nonterminal tail : String)
  /-- Common beginnings were factored out. -/
  | factored (introduced : Nat)
  /-- The empty word is in the language of a left-recursive grammar. -/
  | startNullable (start : String)
  /-- The empty word was brought back through a fresh start. -/
  | emptyReinstated (start : String)
  /-- A grammar was normalized. -/
  | normalized (route : Route) (nonterminals productions nonterminals' productions' : Nat)
  /-- A search ended. -/
  | decided (word : String) (verdict : Verdict)
  /-- A search was given up. -/
  | gaveUp (word : String) (limit : Nat)
  /-- A word list was read. -/
  | casesLoaded (count : Nat)
deriving DecidableEq, Repr

namespace Event

/-- How much an event matters. -/
def level : Event → Level
  | normalized .. => .info
  | decided .. | gaveUp .. => .trace
  | _ => .debug

/-- An event in words. -/
def message : Event → String
  | trimmed before after => s!"useless symbols: {before} -> {after} non-terminals"
  | emptyRemoved nullable before after => s!"vanishing symbols: {nullable} nullable, {before} -> {after} productions"
  | unitsRemoved before after => s!"chain productions: {before} -> {after} productions"
  | tailIntroduced nonterminal tail => s!"direct left recursion on <{nonterminal}>: introduced <{tail}>"
  | factored introduced => s!"left factorization: {introduced} non-terminals introduced"
  | startNullable start => s!"start symbol <{start}> is nullable"
  | emptyReinstated start => s!"empty string reinstated through <{start}>"
  | normalized route n p m q =>
    "normalized by " ++ route.describe ++ s!": {n} non-terminals, {p} productions -> {m} non-terminals, {q} productions"
  | decided word verdict =>
    Text.quote word ++ (if verdict.accepted then ": accepted" else ": rejected") ++ s!" after {verdict.steps} steps"
  | gaveUp word limit => Text.quote word ++ s!": step limit of {limit} reached"
  | casesLoaded count => s!"{count} cases loaded"

end Event

/-! ## Events of transformations -/

namespace Event

/-- What there is to tell about trimming, from the grammar that was given and what came of it. A refusal is no event. -/
def ofTrimming (given : Grammar) : Except Malformed Grammar → List Event
  | .ok made => [.trimmed given.rules.size made.rules.size]
  | .error _ => []

/-- What there is to tell about the removal of empty productions. -/
def ofEmptyRemoval (given made : Grammar) : List Event :=
  [.emptyRemoved given.nullable.length given.productionCount made.productionCount]

/-- What there is to tell about the removal of unit productions. -/
def ofUnitRemoval (given made : Grammar) : List Event := [.unitsRemoved given.productionCount made.productionCount]

/-- What there is to tell about the elimination of left recursion. -/
def ofElimination : Except Malformed Elimination → List Event
  | .ok e => e.introduced.map fun pair => .tailIntroduced (e.grammar.nameOf pair.1) (e.grammar.nameOf pair.2)
  | .error _ => []

/-- What there is to tell about factoring. -/
def ofFactoring (made : Factoring) : List Event := [.factored made.introduced]

/-- What there is to tell about bringing the empty word back to a grammar. -/
def ofReinstatement (given : Grammar) : List Event := [.emptyReinstated (given.freshName given.start)]

end Event

namespace Grammar

/-- What there is to tell about the route of a left-recursive grammar. -/
def descendingEvents (g : Grammar) : List Event :=
  let bare := g.withoutEmpty
  let reduced := bare.withoutUnits
  let trimmed := reduced.trimmed
  let opening := if g.startNullable then [.startNullable (g.nameOf g.start)] else []
  opening ++ Event.ofEmptyRemoval g bare ++ Event.ofUnitRemoval bare reduced ++ Event.ofTrimming reduced trimmed ++
    match trimmed with
    | .error _ => []
    | .ok clean =>
      let elimination := clean.eliminateLeftRecursion
      Event.ofElimination elimination ++
        match elimination with
        | .ok e => if g.startNullable then Event.ofReinstatement e.grammar else []
        | .error _ => []

/-- What there is to tell about a route. -/
def followEvents (g : Grammar) : Route → List Event
  | .leftRecursionRemoval => g.descendingEvents
  | .leftFactoring => Event.ofFactoring g.factoring

/-- What there is to tell about the last trimming of a grammar that took a route. -/
def normalizedEvents (g : Grammar) (route : Route) (followed : Grammar) : List Event :=
  match followed.trimmed with
  | .ok h =>
    [.trimmed followed.rules.size h.rules.size,
     .normalized route g.rules.size g.productionCount h.rules.size h.productionCount]
  | .error _ => []

/-- What there is to tell about normalization. -/
def normalizeEvents (g : Grammar) : List Event :=
  match g.validate with
  | .error _ => []
  | .ok _ =>
    let route := g.route
    g.followEvents route ++
      match g.follow route with
      | .ok followed => g.normalizedEvents route followed
      | .error _ => []

end Grammar

/-- What there is to tell about the search for a word. -/
def Recognizer.checkEvents (r : Recognizer) (word : String) : List Event :=
  match r.search word with
  | some verdict => [.decided word verdict]
  | none => [.gaveUp word r.bound]

end TopDown
