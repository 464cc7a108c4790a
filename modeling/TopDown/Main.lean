import TopDown.CommandLine

/-!
# The program

Reads the files that the command line names and prints the answer.
-/

namespace TopDown.CommandLine

/-- Prints a response and gives its exit code. -/
def respond (response : Response) : IO UInt32 := do
  IO.print response.stdout
  IO.eprint response.stderr
  return response.exitCode.toUInt32

/-- Carries out a plan. -/
def carryOut : Plan → IO UInt32
  | .finish response => respond response
  | .check grammarFile wordsFile limit quiet => do
    try
      let grammarText ← IO.FS.readFile grammarFile
      let wordsText ← IO.FS.readFile wordsFile
      respond (answer grammarText wordsText limit quiet)
    catch
      | .noFileOrDirectory .. => respond missingFile
      | e => respond (failure ("error: " ++ toString e))

end TopDown.CommandLine

/-- Runs the program. -/
def main (args : List String) : IO UInt32 := TopDown.CommandLine.carryOut (TopDown.CommandLine.plan args)
