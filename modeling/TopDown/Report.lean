import TopDown.Checking
import TopDown.Grammar.Printer

/-!
# Reports

A finished check for people to read: the grammar before and after normalization, a line for every word that was given up or did
not fare as expected, and a summary. A quiet report leaves the grammars out.
-/

namespace TopDown.Report

/-- A line with its end. -/
def line (text : String) : String := text ++ "\n"

/-- The lines of a grammar, indented. -/
def grammar (g : Grammar) : String :=
  String.join ((Text.lines g.render.toList).map fun cs => line ("  " ++ String.ofList cs))

/-- The grammar before and after normalization. -/
def grammars (run : Run) : String :=
  "initial grammar:\n\n" ++ grammar run.initial ++ "\nnormalized by " ++ run.normalized.route.describe ++ ":\n\n" ++
    grammar run.normalized.grammar ++ "\n"

/-- A truth value in words. -/
def truth (b : Bool) : String := if b then "true" else "false"

/-- What is said about one word: that its search was given up, and that it did not fare as expected. -/
def outcome (o : Outcome) : String :=
  (match o.result with
  | .error e => line (s!"step limit of {e.steps} reached: " ++ Text.quote o.word)
  | .ok _ => "") ++
    if o.passed then ""
    else line ("expected " ++ truth o.expected ++ ", got " ++ truth o.accepted ++ ": " ++ Text.quote o.word)

/-- How many words fared as expected. -/
def summary (run : Run) : String :=
  let total := run.outcomes.length
  if run.passed then line s!"all {total} cases passed" else line s!"{run.failures} of {total} cases failed"

/-- The whole report. -/
def render (run : Run) (quiet : Bool) : String :=
  (if quiet then "" else grammars run) ++ String.join (run.outcomes.map outcome) ++ summary run

end TopDown.Report
