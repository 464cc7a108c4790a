import TopDown.Event
import TopDown.Grammar.OfText
import TopDown.WordList

/-!
# Checking word lists

A word list is checked against a grammar: the grammar is normalized, every word is decided, and the answer is compared with what
is expected. The grammar's text is read first, then the word list, and only then is the grammar normalized; the first of these
to fail decides the error.
-/

namespace TopDown

/-- Why nothing was checked. -/
inductive CheckError where
  | grammar (error : LoadError)
  | words (error : WordListError)
  | malformed (cause : Malformed)
deriving DecidableEq, Repr

namespace CheckError

/-- The underlying error in words. -/
def source : CheckError → String
  | grammar error => error.message
  | words error => error.message
  | malformed cause => cause.message

/-- The error in words. -/
def message : CheckError → String
  | grammar error => "invalid grammar: " ++ error.message
  | words error => "invalid word list: " ++ error.message
  | malformed cause => cause.message

end CheckError

/-- A case with what became of it. -/
structure Outcome extends Case where
  result : Except StepLimitExceeded Bool

namespace Outcome

/-- Tells whether the word was accepted; a search that was given up counts as rejection. -/
def accepted (o : Outcome) : Bool := o.result.toOption.getD false

/-- Tells whether the word fared as expected. -/
def passed (o : Outcome) : Bool := o.accepted == o.expected

end Outcome

/-- A finished check: the grammar as it was read, as it was normalized, and what became of every case, in order. -/
structure Run where
  initial : Grammar
  normalized : Normalized
  outcomes : List Outcome

namespace Run

/-- How many words did not fare as expected. -/
def failures (run : Run) : Nat := run.outcomes.countP fun o => !o.passed

/-- Tells whether every word fared as expected. -/
def passed (run : Run) : Bool := run.failures == 0

end Run

/-- Decides every case. -/
def Recognizer.outcomes (r : Recognizer) (cases : List Case) : List Outcome := cases.map fun c => ⟨c, r.check c.word⟩

/-- Checks the word list of one text against the grammar of another. -/
def check (grammarText wordsText : String) (limit : Option Nat) : Except CheckError Run := do
  let initial ← (Grammar.ofText grammarText).mapError .grammar
  let cases ← (WordList.ofText wordsText).mapError .words
  let normalized ← initial.normalize.mapError .malformed
  return ⟨initial, normalized, (normalized.grammar.recognizer limit).outcomes cases⟩

/-- What there is to tell about a check. -/
def checkEvents (grammarText wordsText : String) (limit : Option Nat) : List Event :=
  match Grammar.ofText grammarText, WordList.ofText wordsText with
  | .ok initial, .ok cases =>
    .casesLoaded cases.length :: initial.normalizeEvents ++
      match initial.normalize with
      | .ok n =>
        let r := n.grammar.recognizer limit
        cases.flatMap fun c => r.checkEvents c.word
      | .error _ => []
  | _, _ => []

end TopDown
