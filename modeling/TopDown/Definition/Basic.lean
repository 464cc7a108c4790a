import TopDown.Text.Reserved

/-!
# Definitions

A line of a grammar's text defines a nonterminal: its name in angle brackets, `::=`, and alternatives with bars between them.
Here is what such a line says, before its names are given numbers, and what can be wrong with it.
-/

namespace TopDown

/-- What an alternative is made of: characters, and nonterminals by name. -/
inductive Atom where
  | terminal (char : Char)
  | reference (name : String)
deriving DecidableEq, Repr

/-- The name that an atom refers to. -/
def Atom.reference? : Atom → Option String
  | terminal _ => none
  | reference name => some name

/-- A definition: the nonterminal that it is about and its alternatives, in order. -/
structure Definition where
  head : String
  alternatives : List (List Atom)
deriving DecidableEq, Repr

/-- The names in a definition in the order in which they are read: the head, then the references left to right. -/
def Definition.names (d : Definition) : List String := d.head :: d.alternatives.flatten.filterMap Atom.reference?

/-- What can be wrong with a line. -/
inductive Fault where
  /-- There is no `::=`. -/
  | missingDefinition
  /-- What stands before `::=` is not a name in angle brackets. -/
  | invalidHead (head : String)
  /-- Nothing stands between the angle brackets. -/
  | emptyName
  /-- The line ends inside a name. -/
  | unclosedName (name : String)
  /-- An angle bracket opens inside a name. -/
  | bracketInName
  /-- An angle bracket closes where none is open. -/
  | unmatchedBracket
  /-- A character is escaped that needs no escape. -/
  | invalidEscape (char : Char)
  /-- The line ends after a backslash. -/
  | danglingEscape
  /-- A backslash stands inside a name. -/
  | escapeInName
deriving DecidableEq, Repr

/-- A fault in words. -/
def Fault.message : Fault → String
  | missingDefinition => "expected `::=` after the non-terminal"
  | invalidHead head => s!"`{head}` is not of the form <name>"
  | emptyName => "non-terminal name is empty"
  | unclosedName name => s!"unclosed non-terminal `<{name}`"
  | bracketInName => "`<` inside a non-terminal name"
  | unmatchedBracket => "unmatched `>`"
  | invalidEscape char => s!"`\\{char}` is not a valid escape"
  | danglingEscape => "dangling `\\` at the end of the line"
  | escapeInName => "escapes are not allowed inside a non-terminal name"

end TopDown
