import TopDown.Grammar.Basic

/-!
# Fresh nonterminals

Several transformations need a nonterminal that the grammar does not use yet. It gets the number after the largest in use and
the name of the nonterminal that it serves, followed by as many apostrophes as it takes to be new, at least one.
-/

namespace TopDown

/-- The first of `name`, `name'`, `name''`, … that the table does not use. One look a step is taken, `fuel` at most. -/
def Names.unusedFrom (n : Names) : (fuel : Nat) → (name : String) → String
  | 0, name => name
  | fuel + 1, name => if n.uses name then n.unusedFrom fuel (name.push '\'') else name

/-- The first of `name`, `name'`, `name''`, … that the table does not use. As many looks as the table has entries are enough,
since the candidates are all different. -/
def Names.unused (n : Names) (name : String) : String := n.unusedFrom n.entries.length name

/-- A source of numbers for nonterminals. It counts in 32 bits, and behind the last number it starts over. -/
structure NumberSource where
  /-- The number that is given next. -/
  next : UInt32

namespace NumberSource

/-- The source that goes on after a number. -/
def after (last : Nonterminal) : NumberSource := ⟨UInt32.ofNat last + 1⟩

/-- The next number, and what is left of the source. -/
def take (s : NumberSource) : Nonterminal × NumberSource := (s.next.toNat, ⟨s.next + 1⟩)

end NumberSource

namespace Grammar

/-- The number of the next fresh nonterminal. -/
def freshNonterminal (g : Grammar) : Nonterminal := g.maxNonterminal + 1

/-- The name of a fresh nonterminal that serves `origin`. -/
def freshName (g : Grammar) (origin : Nonterminal) : String := g.names.unused ((g.nameOf origin).push '\'')

/-- The grammar with a fresh nonterminal that serves `origin`, given the productions of a list. It is declared last. -/
def addFresh (g : Grammar) (origin : Nonterminal) (ps : List Production) : Grammar :=
  (g.setName g.freshNonterminal (g.freshName origin)).setProductions g.freshNonterminal ps

end Grammar

end TopDown
