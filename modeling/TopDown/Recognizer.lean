import TopDown.Search.Termination

/-!
# Recognizers

A recognizer decides words of one grammar. What its searches need is computed once. With a step limit a search is given up when
the limit is passed. Without one it runs to its end, which a grammar that is not left-recursive guarantees; in a left-recursive
grammar a search may go on for ever, so there it is cut off when the step counter, a word of 64 bits, is full.
-/

namespace TopDown

/-- A grammar with a step limit, if there is one, and what searches need to know about the grammar. -/
structure Recognizer where
  grammar : Grammar
  limit : Option Nat
  prediction : Prediction
  leftRecursive : Bool
  prediction_eq : prediction = grammar.prediction
  leftRecursive_eq : leftRecursive = grammar.leftRecursive

/-- The recognizer of a grammar. -/
def Grammar.recognizer (g : Grammar) (limit : Option Nat) : Recognizer :=
  ⟨g, limit, g.prediction, g.leftRecursive, rfl, rfl⟩

/-- A search was given up after so many steps. -/
structure StepLimitExceeded where
  steps : Nat
deriving DecidableEq, Repr

/-- The error in words. -/
def StepLimitExceeded.message (e : StepLimitExceeded) : String := s!"recognition gave up after {e.steps} steps"

namespace Recognizer

/-- The number of steps at which the step counter is full. -/
def maxSteps : Nat := UInt64.size - 1

/-- The most steps that a search takes before it is given up. -/
def bound (r : Recognizer) : Nat := r.limit.getD maxSteps

/-- Searches of a recognizer whose grammar is not left-recursive end. -/
theorem ends (r : Recognizer) (h : r.leftRecursive = false) (stack : List Node) :
    Acc (Search.Follows r.prediction) stack := by
  rw [r.prediction_eq]
  exact Search.acc_stack (r.leftRecursive_eq ▸ h) stack

/-- The search for a word; `none` when it was given up. -/
def search (r : Recognizer) (word : String) : Option Verdict :=
  let stack := [⟨[.nonterminal r.grammar.start], word.toList⟩]
  match r.limit with
  | some limit => Search.within r.prediction limit 0 stack
  | none =>
    if h : r.leftRecursive = false then some (Search.exhaust r.prediction 0 stack (r.ends h stack))
    else Search.within r.prediction maxSteps 0 stack

/-- Decides a word, or gives up. -/
def check (r : Recognizer) (word : String) : Except StepLimitExceeded Bool :=
  match r.search word with
  | some verdict => .ok verdict.accepted
  | none => .error ⟨r.bound⟩

/-- Tells whether a word was accepted; a search that was given up counts as rejection. -/
def accepts (r : Recognizer) (word : String) : Bool := (r.check word).toOption.getD false

end Recognizer

end TopDown
