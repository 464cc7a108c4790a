import TopDown.Search.Store

/-!
# The machine with shared goals is the search

What the machine stores stands for lists of goals: from a place, following successors, which always stand below. A choice that
is open only needs what stands below the length that it remembers, and these lengths grow from the oldest choice to the newest,
so dropping what was stored later takes nothing from it. The node that the machine is at, and for every open choice the nodes
of its untried productions, are the stack of the search; a step of the machine is a visit of the search.

Main statements: `Machine.Represents.step_leads` (one step) and `Machine.Represents.within_eq` (a run).
-/

namespace TopDown.Search

/-! ## Goals in the store -/

/-- A place is below a length; no place is below any. -/
def Below (size : Nat) (place : Option Nat) : Prop := ∀ n, place = some n → n < size

/-- The goals that are found from a place on. Each has its successor below it. -/
inductive Chain (store : List StoredGoal) : Option Nat → List Symbol → Prop where
  | nil : Chain store none []
  | cons {place : Nat} {symbol : Symbol} {next : Option Nat} {goals : List Symbol}
      (stored : store[place]? = some ⟨symbol, next⟩) (below : Below place next) (rest : Chain store next goals) :
      Chain store (some place) (symbol :: goals)

namespace Chain

variable {store store' : List StoredGoal} {place : Option Nat} {goals : List Symbol}

/-- Goals are found in the store. -/
theorem below_length (h : Chain store place goals) : Below store.length place := by
  cases h with
  | nil => exact fun _ h => nomatch h
  | cons stored below rest =>
    intro n hn
    cases hn
    exact (List.getElem?_eq_some_iff.1 stored).1

/-- Goals that stand below a length only depend on what the store has below it. -/
theorem congr {size : Nat} (hsame : ∀ i < size, store'[i]? = store[i]?) (h : Chain store place goals)
    (hbelow : Below size place) : Chain store' place goals := by
  induction h with
  | nil => exact .nil
  | cons stored below rest ih =>
    have hlt := hbelow _ rfl
    refine .cons ((hsame _ hlt).trans stored) below (ih fun n hn => ?_)
    exact Nat.lt_trans (below n hn) hlt

/-- A production that is pushed stands in front of the goals that were there. -/
theorem pushGoals (h : Chain store place goals) (p : Production) :
    Chain (Machine.pushGoals store place p).1 (Machine.pushGoals store place p).2 (p ++ goals) := by
  induction p with
  | nil => exact h
  | cons s p ih =>
    refine .cons List.getElem?_concat_length ih.below_length ?_
    exact ih.congr (fun i hi => List.getElem?_append_left hi) ih.below_length

end Chain

/-- Nothing that was stored is lost when a production is pushed. -/
theorem prefix_pushGoals (store : List StoredGoal) (rest : Option Nat) (p : Production) :
    store <+: (Machine.pushGoals store rest p).1 := by
  induction p with
  | nil => exact List.prefix_rfl
  | cons s p ih => exact ih.trans (List.prefix_append _ _)

/-- A store that is cut at a length and used again from there has at least this length. -/
theorem le_length_pushGoals_take {store : List StoredGoal} {size : Nat} (hsize : size ≤ store.length) (rest : Option Nat)
    (p : Production) : size ≤ (Machine.pushGoals (store.take size) rest p).1.length := by
  have hle := (prefix_pushGoals (store.take size) rest p).length_le
  rwa [List.length_take_of_le hsize] at hle

/-- A store that is cut at a length and used again from there is the same below. -/
theorem getElem?_pushGoals_take {store : List StoredGoal} {size : Nat} (hsize : size ≤ store.length) (rest : Option Nat)
    (p : Production) : ∀ i < size, (Machine.pushGoals (store.take size) rest p).1[i]? = store[i]? := by
  intro i hi
  obtain ⟨pushed, heq⟩ := prefix_pushGoals (store.take size) rest p
  rw [← heq, List.getElem?_append_left (by rwa [List.length_take_of_le hsize]), List.getElem?_take_of_lt hi]

/-! ## Open choices -/

/-- The nodes that open choices still hold, innermost first. A choice remembers a length below a bound, and that length is the
bound of the choices outside it. -/
inductive Open (store : List StoredGoal) : (bound : Nat) → List OpenChoice → List Node → Prop where
  | nil {bound : Nat} : Open store bound [] []
  | cons {bound : Nat} {choice : OpenChoice} {choices : List OpenChoice} {goals : List Symbol} {nodes : List Node}
      (size : choice.size ≤ bound) (chain : Chain store choice.rest goals) (below : Below choice.size choice.rest)
      (outer : Open store choice.size choices nodes) :
      Open store bound (choice :: choices) ((choice.untried.map fun p => ⟨p ++ goals, choice.input⟩) ++ nodes)

/-- Open choices only need what the store has below their bound. -/
theorem Open.congr {store store' : List StoredGoal} {bound : Nat} {choices : List OpenChoice} {nodes : List Node}
    (hsame : ∀ i < bound, store'[i]? = store[i]?) (h : Open store bound choices nodes) : Open store' bound choices nodes := by
  induction h with
  | nil => exact .nil
  | cons size chain below outer ih =>
    have hsame' := fun i hi => hsame i (Nat.lt_of_lt_of_le hi size)
    exact .cons size (chain.congr hsame' below) below (ih hsame')

/-- The machine is at a node, and its open choices hold the nodes to be visited later. -/
structure Machine.Represents (m : Machine) (node : Node) (rest : List Node) : Prop where
  input : m.input = node.input
  goals : Chain m.store m.goals node.goals
  choices : Open m.store m.store.length m.choices rest

/-- A step that was to leave these nodes on the stack left them: none means that the search failed. -/
def Progress.Leaves (progress : Progress) : List Node → Prop
  | [] => progress = .halted false
  | node :: rest => ∃ m, progress = .running m ∧ m.Represents node rest

namespace Machine

/-- The machine comes back to the first node that an open choice holds. -/
theorem leaves_resume {store : List StoredGoal} {bound : Nat} {choices : List OpenChoice} {nodes : List Node}
    (h : Open store bound choices nodes) (hbound : bound ≤ store.length) : (resume store choices).Leaves nodes := by
  induction h with
  | nil => rfl
  | @cons bound choice choices goals nodes size chain below outer ih =>
    have hsize := Nat.le_trans size hbound
    unfold resume
    cases huntried : choice.untried with
    | nil => exact ih hsize
    | cons p untried =>
      have htake : ∀ i < choice.size, (store.take choice.size)[i]? = store[i]? := fun i hi => List.getElem?_take_of_lt hi
      have hsame := getElem?_pushGoals_take hsize choice.rest p
      have hle := le_length_pushGoals_take hsize choice.rest p
      have hchain := (chain.congr htake below).pushGoals p
      have hopen : Open _ _ ({ choice with untried } :: choices) _ :=
        .cons hle (chain.congr hsame below) below (outer.congr hsame)
      exact ⟨_, rfl, rfl, hchain, hopen⟩

namespace Represents

variable {t : Prediction} {m : Machine} {node : Node} {rest : List Node}

/-- A step ends at an accepting node with success, and otherwise leaves the children of the node in its place. -/
theorem step_leads (h : m.Represents node rest) :
    if node.isAccepting then m.step t = .halted true else (m.step t).Leaves (node.children t ++ rest) := by
  obtain ⟨store, choices, place, input⟩ := m
  obtain ⟨goals, input'⟩ := node
  obtain ⟨rfl, hgoals, hchoices⟩ := h
  have hresume : (resume store choices).Leaves rest := leaves_resume hchoices (Nat.le_refl _)
  cases hgoals with
  | nil =>
    cases input with
    | nil => rfl
    | cons d input => exact hresume
  | @cons place symbol next goals stored below chain =>
    cases symbol with
    | nonterminal nt =>
      let choice : OpenChoice := ⟨next, input, store.length, t.expansions nt input.head?⟩
      have hnew : Open store store.length (choice :: choices)
          ((choice.untried.map fun p => ⟨p ++ goals, choice.input⟩) ++ rest) :=
        .cons (Nat.le_refl _) chain chain.below_length hchoices
      have hstep := leaves_resume hnew (Nat.le_refl _)
      simpa [step, stored, Node.isAccepting, Node.children] using hstep
    | terminal c =>
      cases input with
      | nil => simpa [step, stored, Node.isAccepting, Node.children] using hresume
      | cons d input =>
        by_cases hcd : c = d
        · have hnext : (⟨store, choices, next, input⟩ : Machine).Represents ⟨goals, input⟩ rest := ⟨rfl, chain, hchoices⟩
          simpa [step, stored, Node.isAccepting, Node.children, hcd, Progress.Leaves] using hnext
        · simpa [step, stored, Node.isAccepting, Node.children, hcd] using hresume

/-- A run of the machine is a run of the search, with the same verdict after the same number of steps. -/
theorem within_eq (h : m.Represents node rest) (limit taken : Nat) :
    Machine.within t limit taken m = Search.within t limit taken (node :: rest) := by
  induction limit generalizing taken m node rest with
  | zero => rfl
  | succ limit ih =>
    have hstep := h.step_leads (t := t)
    rw [Machine.within, Search.within]
    split at hstep
    · rename_i ha
      rw [hstep, if_pos ha]
    · rename_i ha
      rw [if_neg ha]
      cases hnodes : node.children t ++ rest with
      | nil =>
        rw [hnodes] at hstep
        have hhalt : m.step t = .halted false := hstep
        rw [hhalt, within_nil]
      | cons next later =>
        rw [hnodes] at hstep
        obtain ⟨m', hrun, hm'⟩ := hstep
        rw [hrun]
        exact ih hm' (taken + 1)

end Represents

/-- The machine starts at the node that the search starts at. -/
theorem represents_start (nt : Nonterminal) (input : List Char) :
    (start nt input).Represents ⟨[.nonterminal nt], input⟩ [] :=
  ⟨rfl, .cons rfl (fun _ h => nomatch h) .nil, .nil⟩

/-- The machine decides as the search does, in as many steps. -/
theorem within_start_eq (t : Prediction) (nt : Nonterminal) (input : List Char) (limit : Nat) :
    within t limit 0 (start nt input) = Search.within t limit 0 [⟨[.nonterminal nt], input⟩] :=
  (represents_start nt input).within_eq limit 0

end Machine

end TopDown.Search
