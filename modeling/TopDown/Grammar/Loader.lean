import TopDown.Grammar.OfText

/-!
# Loading line by line

How a grammar grows while its text is read from top to bottom. The loader keeps the number that the next new name will get, the
names with their numbers, and the rules. A name is declared where it is met first, in a head or in an alternative, and the
alternatives of a line go one by one to the end of what its head has. The first line with a fault ends the loading.
-/

namespace TopDown

/-- What has been loaded so far. -/
structure Loader where
  next : Nonterminal
  names : Names
  rules : Rules
deriving DecidableEq

namespace Loader

/-- Nothing has been loaded. -/
def empty : Loader := ⟨0, .empty, .empty⟩

/-- The number of a name. A name that is new gets the next number and is declared. -/
def intern (l : Loader) (name : String) : Nonterminal × Loader :=
  match l.names.find? name with
  | some nt => (nt, l)
  | none => (l.next, ⟨l.next + 1, l.names.insert l.next name, l.rules.set l.next .empty⟩)

/-- An atom with a number for its name. -/
def internAtom (l : Loader) : Atom → Symbol × Loader
  | .terminal c => (.terminal c, l)
  | .reference name =>
    let (nt, l) := l.intern name
    (.nonterminal nt, l)

/-- The production that an alternative gives, its names met from left to right. -/
def internAtoms (l : Loader) : List Atom → Production × Loader
  | [] => ([], l)
  | a :: atoms =>
    let (s, l) := l.internAtom a
    let (p, l) := l.internAtoms atoms
    (s :: p, l)

/-- Adds an alternative at the end of those of a nonterminal, unless it is there. -/
def addAlternative (nt : Nonterminal) (l : Loader) (atoms : List Atom) : Loader :=
  let (p, l) := l.internAtoms atoms
  { l with rules := l.rules.set nt (.ofList (l.rules.productionsOf nt ++ [p])) }

/-- Loads a definition. -/
def load (l : Loader) (d : Definition) : Loader :=
  let (nt, l) := l.intern d.head
  d.alternatives.foldl (addAlternative nt) l

/-- Loads a numbered line. -/
def loadLine (l : Loader) (line : List Char × Nat) : Except LoadError Loader := l.load <$> Grammar.readLine line

/-- The grammar that was loaded. Its start is what was declared first. -/
def finish (l : Loader) : Except LoadError Grammar :=
  match l.rules.declared with
  | [] => .error .emptyGrammar
  | start :: _ => .ok ⟨start, l.rules, l.names⟩

/-- Loads a text. -/
def ofText (text : String) : Except LoadError Grammar := do
  let l ← (Grammar.numberedLines text).foldlM loadLine empty
  l.finish

end Loader

end TopDown
