import TopDown.Text.Blank
import TopDown.Text.Lines

/-!
# Word lists

Words with what is expected of them. A line that is `[true]` or `[false]`, blanks around it aside, says what is expected of the
words after it. Every other line is a word exactly as it stands, so an empty line is the empty word.
-/

namespace TopDown

/-- A word and whether it is expected to be accepted. -/
structure Case where
  word : String
  expected : Bool
deriving DecidableEq, Repr

/-- Why a text gives no word list. -/
inductive WordListError where
  /-- A word stands on this line, counted from one, before anything was said about what to expect. -/
  | missingHeader (line : Nat)
deriving DecidableEq, Repr

/-- The error in words. -/
def WordListError.message : WordListError → String
  | missingHeader line => s!"line {line}: expected `[true]` or `[false]` before the first word"

namespace WordList

/-- What a line says about the words after it, if it does. -/
def header? (line : List Char) : Option Bool :=
  let trimmed := Text.trim line
  if trimmed = ['[', 't', 'r', 'u', 'e', ']'] then some true
  else if trimmed = ['[', 'f', 'a', 'l', 's', 'e', ']'] then some false
  else none

/-- The cases on some numbered lines, when `expected` has been said before them. -/
def readCases : (expected : Option Bool) → List (List Char × Nat) → Except WordListError (List Case)
  | _, [] => .ok []
  | expected, (line, number) :: rest =>
    match header? line, expected with
    | some said, _ => readCases (some said) rest
    | none, some said => (⟨String.ofList line, said⟩ :: ·) <$> readCases expected rest
    | none, none => .error (.missingHeader number)

/-- The cases of a text, in order. -/
def ofText (text : String) : Except WordListError (List Case) := readCases none ((Text.lines text.toList).zipIdx 1)

end WordList

end TopDown
