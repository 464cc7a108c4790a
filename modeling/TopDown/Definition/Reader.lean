import TopDown.Definition.Basic
import TopDown.Text.Blank

/-!
# Reading definitions

A line is cut at its first `::=`. What stands before it, less the blanks around it, must be a name in angle brackets. What
stands after it is read character by character: a backslash takes the meaning from the reserved character after it, angle
brackets enclose a name, a bar ends an alternative, and every other character stands for itself, blanks included. The first
fault from the left is the one reported.
-/

namespace TopDown.Definition

open Text (isReserved trim)

/-- A piece of the part after `::=`. -/
inductive Token where
  | atom (atom : Atom)
  | bar
deriving DecidableEq, Repr

/-- Where the reader is: between pieces, after a backslash, or inside a name of which it has read a part. -/
inductive Context where
  | body
  | escape
  | name (read : List Char)
deriving DecidableEq, Repr

/-- The pieces of the part after `::=`, read from a context. -/
def scan : Context → List Char → Except Fault (List Token)
  | .body, [] => .ok []
  | .escape, [] => .error .danglingEscape
  | .name read, [] => .error (.unclosedName (String.ofList read))
  | .body, c :: cs =>
    if c = '|' then (Token.bar :: ·) <$> scan .body cs
    else if c = '\\' then scan .escape cs
    else if c = '<' then scan (.name []) cs
    else if c = '>' then .error .unmatchedBracket
    else (Token.atom (.terminal c) :: ·) <$> scan .body cs
  | .escape, c :: cs =>
    if isReserved c then (Token.atom (.terminal c) :: ·) <$> scan .body cs
    else .error (.invalidEscape c)
  | .name read, c :: cs =>
    if c = '>' then
      if read = [] then .error .emptyName
      else (Token.atom (.reference (String.ofList read)) :: ·) <$> scan .body cs
    else if c = '<' then .error .bracketInName
    else if c = '\\' then .error .escapeInName
    else scan (.name (read ++ [c])) cs

/-- Puts an atom in front of the first alternative. -/
def consAtom (a : Atom) : List (List Atom) → List (List Atom)
  | [] => [[a]]
  | alternative :: rest => (a :: alternative) :: rest

/-- The alternatives that bars divide. There is always one more than there are bars. -/
def splitAtBars : List Token → List (List Atom)
  | [] => [[]]
  | .bar :: ts => [] :: splitAtBars ts
  | .atom a :: ts => consAtom a (splitAtBars ts)

/-- The parts of a line before and after its first `::=`. -/
def splitLine? : List Char → Option (List Char × List Char)
  | [] => none
  | ':' :: ':' :: '=' :: cs => some ([], cs)
  | c :: cs => (splitLine? cs).map fun parts => (c :: parts.1, parts.2)

/-- What stands between an angle bracket at the start and one at the end. -/
def bracketed? : List Char → Option (List Char)
  | '<' :: cs => if cs.getLast? = some '>' then some cs.dropLast else none
  | _ => none

/-- The name that a trimmed head gives. -/
def readHead (head : List Char) : Except Fault String :=
  match bracketed? head with
  | none => .error (.invalidHead (String.ofList head))
  | some name =>
    if name = [] then .error .emptyName
    else if name.any fun c => c == '<' || c == '>' then .error (.invalidHead (String.ofList head))
    else .ok (String.ofList name)

/-- Reads a line. -/
def ofLine (line : List Char) : Except Fault Definition :=
  match splitLine? line with
  | none => .error .missingDefinition
  | some (head, body) => do
    let name ← readHead (trim head)
    let tokens ← scan .body body
    return ⟨name, splitAtBars tokens⟩

end TopDown.Definition
