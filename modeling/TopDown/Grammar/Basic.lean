import TopDown.Names
import TopDown.Rules

/-!
# Grammars

A context-free grammar: a start nonterminal, rules, and names for showing nonterminals. Nothing ties the three together: the
start may be undeclared, a production may mention an undeclared nonterminal, and a name may outlive the rules of what it names.
`Grammar.validate` says when the first two do not happen.
-/

namespace TopDown

/-- A context-free grammar over single characters. -/
@[ext] structure Grammar where
  start : Nonterminal
  rules : Rules
  names : Names
deriving DecidableEq

namespace Grammar

/-- The grammar that declares its start and nothing else. -/
def new (start : Nonterminal) : Grammar := ⟨start, Rules.empty.declare start, .empty⟩

/-! ## Reading a grammar -/

/-- The declared nonterminals in order. -/
def declared (g : Grammar) : List Nonterminal := g.rules.declared

/-- No more nonterminals are declared than there are rules. -/
theorem length_declared_le_size (g : Grammar) : g.declared.length ≤ g.rules.size := Nat.le_of_eq (List.length_map _)

/-- The productions of a nonterminal in order; an undeclared one has none. -/
def productionsOf (g : Grammar) (nt : Nonterminal) : List Production := g.rules.productionsOf nt

/-- How many productions the grammar has. -/
def productionCount (g : Grammar) : Nat := g.rules.productionCount

/-- The nonterminals that the productions of a nonterminal mention, in order, with repetition. -/
def mentionsOf (g : Grammar) (nt : Nonterminal) : List Nonterminal := (g.productionsOf nt).flatMap Production.nonterminals

/-- Every mention of a nonterminal in a production, with the nonterminal whose production it is, in stored order. -/
def mentions (g : Grammar) : List (Nonterminal × Nonterminal) :=
  g.rules.productions.flatMap fun rule => (Production.nonterminals rule.2).map fun nt => (rule.1, nt)

/-- The characters of the grammar, ascending. -/
def terminals (g : Grammar) : List Char :=
  Ascending.ofList Char.toNat (g.rules.productions.flatMap fun rule => Production.terminals rule.2)

/-- How a nonterminal is shown: by its name, or by its number when it has none. -/
def nameOf (g : Grammar) (nt : Nonterminal) : String := (g.names.get? nt).getD (Nat.repr nt)

/-- The largest nonterminal in use as start, declared, named or mentioned. Names count, because a removed nonterminal keeps
its name. -/
def maxNonterminal (g : Grammar) : Nonterminal :=
  (g.declared ++ g.names.named ++ g.mentions.map Prod.snd).foldl max g.start

/-- Tells whether two grammars have the same start and the same rules, whatever their order and their names. -/
def agrees (g h : Grammar) : Bool := g.start == h.start && g.rules.agrees h.rules

/-! ## Editing a grammar -/

/-- Declares a nonterminal. -/
def declare (g : Grammar) (nt : Nonterminal) : Grammar := { g with rules := g.rules.declare nt }

/-- Gives a nonterminal the productions of a list; it is declared if it was not. -/
def setProductions (g : Grammar) (nt : Nonterminal) (ps : List Production) : Grammar :=
  { g with rules := g.rules.set nt (.ofList ps) }

/-- What is set is found, each production once, and nothing else changes. -/
theorem productionsOf_setProductions (g : Grammar) (nt m : Nonterminal) (ps : List Production) :
    (g.setProductions nt ps).productionsOf m = if m = nt then distinct ps else g.productionsOf m := by
  rw [← Alternatives.toList_ofList]
  exact g.rules.productionsOf_set nt m (.ofList ps)

/-- Adds a production at the end of a nonterminal's, unless it is there; the nonterminal is declared if it was not. -/
def addProduction (g : Grammar) (nt : Nonterminal) (p : Production) : Grammar :=
  g.setProductions nt (g.productionsOf nt ++ [p])

/-- Gives a nonterminal a name; pairs that share the nonterminal or the name are lost. -/
def setName (g : Grammar) (nt : Nonterminal) (name : String) : Grammar := { g with names := g.names.insert nt name }

end Grammar

end TopDown
