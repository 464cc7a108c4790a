import TopDown.Grammar.Basic
import TopDown.Text.Reserved

/-!
# Printing grammars

The text form of a grammar: a line for each nonterminal that has productions, the start first and the others in order of
declaration. A line is the name in angle brackets, `::=`, and the productions with bars between them.
-/

namespace TopDown.Grammar

open Text (isReserved)

/-- A nonterminal in angle brackets. -/
def showName (g : Grammar) (nt : Nonterminal) : List Char := '<' :: (g.nameOf nt).toList ++ ['>']

/-- A symbol; a reserved character is escaped. -/
def showSymbol (g : Grammar) : Symbol → List Char
  | .nonterminal nt => g.showName nt
  | .terminal c => if isReserved c then ['\\', c] else [c]

/-- A production is shown as its symbols one after the other, the empty one as nothing. -/
def showProduction (g : Grammar) (p : Production) : List Char := p.flatMap g.showSymbol

/-- Productions with bars between them. -/
def showProductions (g : Grammar) (ps : List Production) : List Char := ['|'].intercalate (ps.map g.showProduction)

/-- The line of a nonterminal, without its end. -/
def showLine (g : Grammar) (nt : Nonterminal) : List Char :=
  g.showName nt ++ [':', ':', '='] ++ g.showProductions (g.productionsOf nt)

/-- The nonterminals that have a line, in the order of the lines. -/
def shown (g : Grammar) : List Nonterminal :=
  (g.start :: g.declared.filter (· ≠ g.start)).filter fun nt => !(g.productionsOf nt).isEmpty

/-- The grammar as text, every line ended. -/
def render (g : Grammar) : String := String.ofList (g.shown.flatMap fun nt => g.showLine nt ++ ['\n'])

end TopDown.Grammar
