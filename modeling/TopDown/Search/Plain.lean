import TopDown.Search.Store

/-!
# Search with goals as lists

The machine once more, with the goals themselves in the place of where they are stored: what is still to be matched is a list, and
an open choice keeps the list behind the nonterminal that it was made for. Lists are only taken apart and put in front of each
other, so there is nothing to be dropped when the search comes back to a choice.
-/

namespace TopDown.Search

/-- A choice that is still open: the goals after it, the input where it was made, and the productions not tried yet. -/
structure PlainChoice where
  rest : List Symbol
  input : List Char
  untried : List Production
deriving DecidableEq, Repr

/-- The state of the search. The innermost choice comes first. -/
structure PlainMachine where
  goals : List Symbol
  input : List Char
  choices : List PlainChoice
deriving DecidableEq, Repr

/-- What one step of the search leads to. A list of goals cannot be lost. -/
inductive PlainProgress where
  /-- The search ended. -/
  | halted (accepted : Bool)
  /-- The search goes on. -/
  | running (machine : PlainMachine)
deriving DecidableEq, Repr

namespace PlainMachine

/-- The search that is about to match one nonterminal. -/
def start (nt : Nonterminal) (input : List Char) : PlainMachine := ⟨[.nonterminal nt], input, []⟩

/-- Tries the next production of the innermost choice that has one; choices without one are closed. -/
def resume : List PlainChoice → PlainProgress
  | [] => .halted false
  | choice :: choices =>
    match choice.untried with
    | [] => resume choices
    | p :: untried => .running ⟨p ++ choice.rest, choice.input, { choice with untried } :: choices⟩

/-- One step. -/
def step (t : Prediction) (m : PlainMachine) : PlainProgress :=
  match m.goals, m.input with
  | [], [] => .halted true
  | [], _ :: _ => resume m.choices
  | .terminal c :: goals, d :: input => if c = d then .running { m with goals, input } else resume m.choices
  | .terminal _ :: _, [] => resume m.choices
  | .nonterminal nt :: goals, input => resume (⟨goals, input, t.expansions nt input.head?⟩ :: m.choices)

/-- What the search has come to after some steps, if it was left to itself. -/
def after (t : Prediction) : (steps : Nat) → PlainMachine → PlainProgress
  | 0, m => .running m
  | steps + 1, m =>
    match m.step t with
    | .halted accepted => .halted accepted
    | .running next => next.after t steps

/-- Runs the search for at most `limit` steps; `taken` counts the steps before. -/
def within (t : Prediction) : (limit taken : Nat) → PlainMachine → Option Verdict
  | 0, _, _ => none
  | limit + 1, taken, m =>
    match m.step t with
    | .halted accepted => some ⟨accepted, taken + 1⟩
    | .running next => within t limit (taken + 1) next

end PlainMachine

/-- What the machine with a store has come to after some steps, if it was left to itself. -/
def Machine.after (t : Prediction) : (steps : Nat) → Machine → Progress
  | 0, m => .running m
  | steps + 1, m =>
    match m.step t with
    | .halted accepted => .halted accepted
    | .running next => next.after t steps
    | .lost => .lost

end TopDown.Search
