import TopDown.Definition.Reader
import TopDown.Grammar.Basic
import TopDown.Text.Lines

/-!
# Grammars from text

A text gives a grammar by one definition a line; blank lines are skipped but counted. Names get numbers in the order in which
they first appear, every name is declared, the first is the start, and the alternatives of all lines with one head belong
together. The first line with a fault is the one blamed.
-/

namespace TopDown

/-- Why a text gives no grammar. -/
inductive LoadError where
  /-- Every line is blank. -/
  | emptyGrammar
  /-- A line, counted from one, has a fault. -/
  | atLine (number : Nat) (fault : Fault)
deriving DecidableEq, Repr

namespace LoadError

/-- The line that is blamed, zero for the whole text. -/
def line : LoadError → Nat
  | emptyGrammar => 0
  | atLine number _ => number

/-- The error in words. -/
def message : LoadError → String
  | emptyGrammar => "the grammar has no productions"
  | atLine number fault => s!"line {number}: " ++ fault.message

end LoadError

namespace Grammar

/-- The lines that are not blank, with their numbers. -/
def numberedLines (text : String) : List (List Char × Nat) :=
  ((Text.lines text.toList).zipIdx 1).filter fun line => !(Text.trim line.1).isEmpty

/-- Reads one numbered line. -/
def readLine (line : List Char × Nat) : Except LoadError Definition :=
  (Definition.ofLine line.1).mapError (.atLine line.2)

/-- The names of some definitions in order of first appearance. A name's place is its number. -/
def namesOf (ds : List Definition) : List String := distinct (ds.flatMap Definition.names)

/-- An atom with its name exchanged for the name's number. -/
def symbolOf (names : List String) : Atom → Symbol
  | .terminal c => .terminal c
  | .reference name => .nonterminal (names.idxOf name)

/-- The productions that some definitions give a name, in order. -/
def productionsFor (names : List String) (ds : List Definition) (name : String) : List Production :=
  (ds.filter fun d => d.head = name).flatMap fun d => d.alternatives.map fun atoms => atoms.map (symbolOf names)

/-- The grammar that some definitions give. -/
def ofDefinitions (ds : List Definition) : Grammar :=
  let names := namesOf ds
  { start := 0
    rules := .ofList (names.zipIdx.map fun entry => (entry.2, productionsFor names ds entry.1))
    names := .ofList (names.zipIdx.map fun entry => (entry.2, entry.1)) }

/-- The grammar that a text gives. -/
def ofText (text : String) : Except LoadError Grammar := do
  let ds ← (numberedLines text).mapM readLine
  if ds.isEmpty then .error .emptyGrammar else .ok (ofDefinitions ds)

end Grammar

end TopDown
