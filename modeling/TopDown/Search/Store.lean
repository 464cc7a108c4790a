import TopDown.Search.Basic

/-!
# Search with shared goals

The same search as a machine that copies no goals. Goals stand in one store, each with the place of the goal after it, so that
the goals of every open choice can share their ends. A choice remembers how long the store was when it was made; when the search
comes back to it, what was stored later is dropped and the places are used again. A goal's successor always stands below it, and
the goals of an open choice below the length that the choice remembers, so nothing that is still needed is ever dropped.
-/

namespace TopDown.Search

/-- A goal in the store, with the place of the goal after it; the last goal has none. -/
structure StoredGoal where
  symbol : Symbol
  next : Option Nat
deriving DecidableEq, Repr

/-- A choice that is still open: what to do after it, the input where it was made, the length of the store then, and the
productions not tried yet. -/
structure OpenChoice where
  rest : Option Nat
  input : List Char
  size : Nat
  untried : List Production
deriving DecidableEq, Repr

/-- The state of the machine. The innermost choice comes first. -/
structure Machine where
  store : List StoredGoal
  choices : List OpenChoice
  goals : Option Nat
  input : List Char
deriving DecidableEq, Repr

/-- What one step of the machine leads to. -/
inductive Progress where
  /-- The search ended. -/
  | halted (accepted : Bool)
  /-- The search goes on. -/
  | running (machine : Machine)
  /-- A goal was looked for where none is stored. -/
  | lost
deriving DecidableEq, Repr

namespace Machine

/-- The machine that is about to match one nonterminal. -/
def start (nt : Nonterminal) (input : List Char) : Machine := ⟨[⟨.nonterminal nt, none⟩], [], some 0, input⟩

/-- Stores a production in front of the goals at `rest`, last symbol first, and gives the place of its first. -/
def pushGoals (store : List StoredGoal) (rest : Option Nat) : Production → List StoredGoal × Option Nat
  | [] => (store, rest)
  | s :: p =>
    let (store, next) := pushGoals store rest p
    (store ++ [⟨s, next⟩], some store.length)

/-- Tries the next production of the innermost choice that has one; choices without one are closed. -/
def resume (store : List StoredGoal) : List OpenChoice → Progress
  | [] => .halted false
  | choice :: choices =>
    match choice.untried with
    | [] => resume store choices
    | p :: untried =>
      let (store, goals) := pushGoals (store.take choice.size) choice.rest p
      .running ⟨store, { choice with untried } :: choices, goals, choice.input⟩

/-- One step. -/
def step (t : Prediction) (m : Machine) : Progress :=
  match m.goals with
  | none => if m.input.isEmpty then .halted true else resume m.store m.choices
  | some place =>
    match m.store[place]?, m.input with
    | none, _ => .lost
    | some ⟨.terminal c, next⟩, d :: input =>
      if c = d then .running { m with goals := next, input } else resume m.store m.choices
    | some ⟨.terminal _, _⟩, [] => resume m.store m.choices
    | some ⟨.nonterminal nt, next⟩, input =>
      resume m.store (⟨next, input, m.store.length, t.expansions nt input.head?⟩ :: m.choices)

/-- Runs the machine for at most `limit` steps; `taken` counts the steps before. -/
def within (t : Prediction) : (limit taken : Nat) → Machine → Option Verdict
  | 0, _, _ => none
  | limit + 1, taken, m =>
    match m.step t with
    | .halted accepted => some ⟨accepted, taken + 1⟩
    | .running next => within t limit (taken + 1) next
    | .lost => none

end Machine

end TopDown.Search
