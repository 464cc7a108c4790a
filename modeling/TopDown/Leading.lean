import TopDown.Nullable

/-!
# Leading symbols

What a derivation can begin with. A production can begin with any of its symbols that only nullable nonterminals precede.
-/

namespace TopDown

/-- The nonterminals that only nullable ones precede, left to right. -/
def Production.leadingNonterminals (nullable : List Nonterminal) : Production → List Nonterminal
  | .nonterminal nt :: p => nt :: if nullable.contains nt then leadingNonterminals nullable p else []
  | _ => []

/-- The first character, if only nullable nonterminals precede it. -/
def Production.leadingTerminal? (nullable : List Nonterminal) : Production → Option Char
  | [] => none
  | .terminal c :: _ => some c
  | .nonterminal nt :: p => if nullable.contains nt then leadingTerminal? nullable p else none

namespace Grammar

/-- The nonterminals that the productions of a nonterminal can begin with. -/
def leadingNonterminals (g : Grammar) (nullable : List Nonterminal) (nt : Nonterminal) : List Nonterminal :=
  (g.productionsOf nt).flatMap (Production.leadingNonterminals nullable)

end Grammar

end TopDown
