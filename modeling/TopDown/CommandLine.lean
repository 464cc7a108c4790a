import TopDown.Report

/-!
# The command line

The program takes two files, a grammar and a word list, and a few switches. A switch is written as a letter after one hyphen,
where several letters can share a hyphen, or as a word after two. The switch that takes a value takes what follows it in the
same argument, or else the next argument, whatever that looks like. Two hyphens alone end the switches.
-/

namespace TopDown.CommandLine

/-- The switches. -/
inductive Switch where
  | steps | quiet | help
deriving DecidableEq, Repr

namespace Switch

/-- All switches, in the order in which they are listed. -/
def all : List Switch := [steps, quiet, help]

/-- The letter of a switch. -/
def letter : Switch → Char
  | steps => 's'
  | quiet => 'q'
  | help => 'h'

/-- The word of a switch. -/
def word : Switch → String
  | steps => "steps"
  | quiet => "quiet"
  | help => "help"

/-- Tells whether a switch takes a value. -/
def takesValue : Switch → Bool
  | steps => true
  | quiet | help => false

/-- The switch of a name, which may be its letter or its word. -/
def ofName? (name : List Char) : Option Switch := all.find? fun s => name = [s.letter] || name = s.word.toList

end Switch

/-- What is wrong with the arguments. Names are given as they were written. -/
inductive UsageError where
  | unrecognized (name : String)
  | missingValue (name : String)
  | unexpectedValue (name : String)
  | repeated (switch : Switch)
deriving DecidableEq, Repr

/-- The error in words. A repeated switch is given by its word. -/
def UsageError.message : UsageError → String
  | unrecognized name => s!"Unrecognized option: '{name}'"
  | missingValue name => s!"Argument to option '{name}' missing"
  | unexpectedValue name => s!"Option '{name}' does not take an argument"
  | repeated switch => "Option '" ++ switch.word ++ "' given more than once"

/-! ## Reading the arguments -/

/-- What the next argument is taken for. -/
inductive Expecting where
  /-- A switch or a file. -/
  | anything
  /-- The value of a switch that was written under this name. -/
  | value (switch : Switch) (name : String)
  /-- A file, whatever it looks like. -/
  | file
deriving DecidableEq, Repr

/-- What has been read so far: the switches with their values, and the files, in order. -/
structure Reading where
  expecting : Expecting
  switches : List (Switch × Option String)
  files : List String

namespace Reading

/-- Nothing has been read. -/
def start : Reading := ⟨.anything, [], []⟩

/-- A switch was read with its value, if it has one. -/
def give (r : Reading) (switch : Switch) (value : Option String) : Reading :=
  { r with expecting := .anything, switches := r.switches ++ [(switch, value)] }

/-- A file was read. -/
def addFile (r : Reading) (file : String) : Reading := { r with files := r.files ++ [file] }

/-- Reads a switch given by its word, with the value that an equals sign gave it. -/
def takeWord (r : Reading) (name : List Char) (value : Option String) : Except UsageError Reading :=
  match Switch.ofName? name, value with
  | none, _ => .error (.unrecognized (String.ofList name))
  | some switch, none =>
    if switch.takesValue then .ok { r with expecting := .value switch (String.ofList name) } else .ok (r.give switch none)
  | some switch, some value =>
    if switch.takesValue then .ok (r.give switch (some value)) else .error (.unexpectedValue (String.ofList name))

/-- Reads switches given by their letters. What follows the letter of a switch that takes a value is its value. -/
def takeLetters (r : Reading) : List Char → Except UsageError Reading
  | [] => .ok r
  | c :: cs =>
    match Switch.ofName? [c] with
    | none => .error (.unrecognized c.toString)
    | some switch =>
      if switch.takesValue then
        if cs = [] then .ok { r with expecting := .value switch c.toString }
        else .ok (r.give switch (some (String.ofList cs)))
      else (r.give switch none).takeLetters cs

/-- The value after the first equals sign. -/
def valueOf? (cs : List Char) : Option String :=
  match cs.dropWhile (· ≠ '=') with
  | [] => none
  | _ :: value => some (String.ofList value)

/-- Reads one argument. -/
def take (r : Reading) (arg : String) : Except UsageError Reading :=
  match r.expecting with
  | .value switch _ => .ok (r.give switch (some arg))
  | .file => .ok (r.addFile arg)
  | .anything =>
    match arg.toList with
    | ['-', '-'] => .ok { r with expecting := .file }
    | '-' :: '-' :: cs => r.takeWord (cs.takeWhile (· ≠ '=')) (valueOf? cs)
    | '-' :: c :: cs => r.takeLetters (c :: cs)
    | _ => .ok (r.addFile arg)

/-- How often a switch was given. -/
def count (r : Reading) (switch : Switch) : Nat := r.switches.countP fun given => given.1 = switch

/-- Tells whether a switch was given. -/
def has (r : Reading) (switch : Switch) : Bool := r.count switch != 0

/-- Ends the reading: no value may be missing, and no switch may have been given twice. -/
def finish (r : Reading) : Except UsageError Reading :=
  match r.expecting with
  | .value _ name => .error (.missingValue name)
  | _ =>
    match Switch.all.find? fun switch => r.count switch > 1 with
    | some switch => .error (.repeated switch)
    | none => .ok r

end Reading

/-- Reads all arguments. -/
def read (args : List String) : Except UsageError Reading := do
  let r ← args.foldlM Reading.take Reading.start
  r.finish

/-- A step limit: digits, with one plus sign in front at most, for a number of 64 bits. -/
def readLimit? (text : String) : Option Nat :=
  let digits : List Char := match text.toList with
    | '+' :: cs => cs
    | cs => cs
  let value : Nat := digits.foldl (fun n c => 10 * n + (c.toNat - '0'.toNat)) 0
  if digits ≠ [] ∧ digits.all Char.isDigit ∧ value < UInt64.size then some value else none

/-! ## Answering -/

/-- What the program leaves behind. -/
structure Response where
  exitCode : UInt8
  stdout : String
  stderr : String
deriving DecidableEq, Repr

/-- How the program is called. -/
def usage : String :=
  String.join (List.map Report.line
    ["Usage: rdcheck [options] GRAMMAR WORDS",
     "",
     "Options:",
     "    -s, --steps N       Give up on a word after N recognizer steps and count",
     "                        it as rejected.",
     "                        Unlimited by default",
     "    -q, --quiet         Print only failures and the summary",
     "    -h, --help          Print this message"])

/-- The program stops with a message on its error output. -/
def failure (message : String) : Response := ⟨1, "", message ++ "\n"⟩

/-- What the arguments ask for. -/
inductive Plan where
  /-- To answer at once. -/
  | finish (response : Response)
  /-- To check the word list of one file against the grammar of another. -/
  | check (grammarFile wordsFile : String) (limit : Option Nat) (quiet : Bool)

/-- What well-read arguments ask for, when the step limit is known. -/
def planFiles (r : Reading) (limit : Option Nat) : Plan :=
  match r.files with
  | [grammarFile, wordsFile] => .check grammarFile wordsFile limit (r.has .quiet)
  | _ => .finish ⟨1, usage, ""⟩

/-- What the arguments ask for. Help goes before a bad step limit, and a bad step limit before a wrong number of files. -/
def plan (args : List String) : Plan :=
  match read args with
  | .error e => .finish (failure e.message)
  | .ok r =>
    if r.has .help then .finish ⟨0, usage, ""⟩
    else match r.switches.lookup .steps with
      | some (some text) =>
        match readLimit? text with
        | some limit => planFiles r (some limit)
        | none => .finish (failure s!"invalid step limit `{text}`")
      | _ => planFiles r none

/-- The answer when a file is not there. -/
def missingFile : Response := failure "error: No such file or directory (os error 2)"

/-- The answer of a check. The exit code tells whether every word fared as expected. -/
def answer (grammarText wordsText : String) (limit : Option Nat) (quiet : Bool) : Response :=
  match TopDown.check grammarText wordsText limit with
  | .ok run => ⟨if run.passed then 0 else 1, Report.render run quiet, ""⟩
  | .error e => failure ("error: " ++ e.message)

/-- The answer to some arguments, where `contents` gives the text of each file that is there. -/
def run (contents : String → Option String) (args : List String) : Response :=
  match plan args with
  | .finish response => response
  | .check grammarFile wordsFile limit quiet =>
    match contents grammarFile, contents wordsFile with
    | some grammarText, some wordsText => answer grammarText wordsText limit quiet
    | _, _ => missingFile

end TopDown.CommandLine
