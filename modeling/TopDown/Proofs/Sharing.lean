import Mathlib.Data.List.Forall2
import TopDown.Proofs.Store
import TopDown.Recognizer
import TopDown.Search.Plain

/-!
# A store stands for lists

The machine that stores its goals uses places again, and the search with goals as lists never drops anything; yet the two go
through the same steps. Every goal has its successor below it, and the choices that are open remember lengths of the store that
only shrink outwards, each with its goals below. So dropping what was stored after the innermost choice leaves the goals of this
choice and of all others as they are, and the store always holds the lists that the search has.

Main statements: `Machine.mirrors_step` (one step), `Machine.mirrors_after` (a run) and `sharing_exact`.
-/

namespace TopDown.Search

/-! ## Places in order -/

/-- Every goal in a store has its successor below it. -/
def Descending (store : List StoredGoal) : Prop := ∀ place goal, store[place]? = some goal → Below place goal.next

/-- Open choices, innermost first, below a bound: each has its goals below the length that it remembers, and no choice remembers
more than those inside it. -/
structure Nested (bound : Nat) (choices : List OpenChoice) : Prop where
  size : ∀ choice ∈ choices, choice.size ≤ bound
  rest : ∀ choice ∈ choices, Below choice.size choice.rest
  sizes : choices.Pairwise fun inner outer => outer.size ≤ inner.size

/-- All places in a machine are where they should be. -/
structure Machine.Sound (m : Machine) : Prop where
  goals : Below m.store.length m.goals
  store : Descending m.store
  choices : Nested m.store.length m.choices

/-- A place below a length is below every larger one. -/
theorem Below.mono {small large : Nat} {place : Option Nat} (h : Below small place) (hle : small ≤ large) :
    Below large place := by
  intro n hn
  exact Nat.lt_of_lt_of_le (h n hn) hle

theorem Descending.nil : Descending [] := by
  intro place goal hgoal
  cases hgoal

/-- Dropping the end of a store keeps successors below. -/
theorem Descending.take {store : List StoredGoal} (h : Descending store) (size : Nat) : Descending (store.take size) := by
  intro place goal hgoal
  rw [List.getElem?_take] at hgoal
  split at hgoal
  · exact h place goal hgoal
  · cases hgoal

/-- A goal whose successor is in the store can be stored. -/
theorem Descending.concat {store : List StoredGoal} (h : Descending store) {goal : StoredGoal}
    (hnext : Below store.length goal.next) : Descending (store ++ [goal]) := by
  intro place found hfound
  have hlt := (List.getElem?_eq_some_iff.1 hfound).1
  by_cases hold : place < store.length
  · rw [List.getElem?_append_left hold] at hfound
    exact h place found hfound
  · obtain rfl : place = store.length := by
      rw [List.length_append, List.length_singleton] at hlt
      omega
    rw [List.getElem?_concat_length] at hfound
    cases hfound
    exact hnext

/-- Storing a production keeps successors below, and the place of its first goal is in the store. -/
theorem Descending.pushGoals {store : List StoredGoal} (h : Descending store) {rest : Option Nat}
    (hrest : Below store.length rest) (p : Production) :
    Descending (Machine.pushGoals store rest p).1 ∧
      Below (Machine.pushGoals store rest p).1.length (Machine.pushGoals store rest p).2 := by
  induction p with
  | nil => exact ⟨h, hrest⟩
  | cons s p ih =>
    obtain ⟨hstore, hfirst⟩ := ih
    refine ⟨hstore.concat hfirst, ?_⟩
    intro n hn
    cases hn
    simp [Machine.pushGoals]

namespace Nested

variable {bound : Nat} {choice : OpenChoice} {choices : List OpenChoice}

/-- No choice is open. -/
theorem nil (bound : Nat) : Nested bound [] := by
  refine ⟨?_, ?_, List.Pairwise.nil⟩
  · intro choice hchoice
    cases hchoice
  · intro choice hchoice
    cases hchoice

/-- The choices outside a choice are below the length that it remembers. -/
theorem tail (h : Nested bound (choice :: choices)) : Nested choice.size choices := by
  obtain ⟨hsizes, houter⟩ := List.pairwise_cons.1 h.sizes
  exact ⟨hsizes, fun outer ho => h.rest outer (List.mem_cons_of_mem choice ho), houter⟩

/-- A choice that remembers a length below a bound stands inside the choices below this length. -/
theorem cons (h : Nested choice.size choices) (hsize : choice.size ≤ bound) (hrest : Below choice.size choice.rest) :
    Nested bound (choice :: choices) := by
  refine ⟨?_, ?_, List.pairwise_cons.2 ⟨h.size, h.sizes⟩⟩
  · intro outer ho
    rcases List.mem_cons.1 ho with rfl | ho
    · exact hsize
    · exact Nat.le_trans (h.size outer ho) hsize
  · intro outer ho
    rcases List.mem_cons.1 ho with rfl | ho
    · exact hrest
    · exact h.rest outer ho

theorem mono {large : Nat} (h : Nested bound choices) (hle : bound ≤ large) : Nested large choices :=
  ⟨fun outer ho => Nat.le_trans (h.size outer ho) hle, h.rest, h.sizes⟩

end Nested

/-! ## Lists in the store -/

/-- A choice whose goals are stored stands for one that has them as a list. -/
structure OpenChoice.StandsFor (store : List StoredGoal) (choice : OpenChoice) (plain : PlainChoice) : Prop where
  rest : Chain store choice.rest plain.rest
  input : choice.input = plain.input
  untried : choice.untried = plain.untried

/-- A machine whose goals are stored stands for one that has them as lists. -/
structure Machine.StandsFor (m : Machine) (plain : PlainMachine) : Prop where
  goals : Chain m.store m.goals plain.goals
  input : m.input = plain.input
  choices : List.Forall₂ (OpenChoice.StandsFor m.store) m.choices plain.choices

/-- Two searches have come to the same: both ended with the same verdict, or the places of the one are in order and it stands for
the other. -/
inductive Progress.Mirrors : Progress → PlainProgress → Prop where
  | halted (accepted : Bool) : Mirrors (.halted accepted) (.halted accepted)
  | running {m : Machine} {plain : PlainMachine} (sound : m.Sound) (stands : m.StandsFor plain) :
      Mirrors (.running m) (.running plain)

namespace Progress.Mirrors

variable {progress : Progress} {plain : PlainProgress} {m : Machine}

/-- A machine that has come to the same as a search with lists is not lost. -/
theorem ne_lost (h : progress.Mirrors plain) : progress ≠ .lost := by
  intro hlost
  rw [hlost] at h
  cases h

/-- The places of a machine that goes on like a search with lists are in order. -/
theorem sound_of_running (h : progress.Mirrors plain) (hm : progress = .running m) : m.Sound := by
  cases h with
  | halted accepted => cases hm
  | running sound stands =>
    cases hm
    exact sound

end Progress.Mirrors

/-- Choices below a bound stand for the same lists in every store that is the same below the bound. -/
theorem standsFor_congr {store store' : List StoredGoal} {bound : Nat} (hsame : ∀ i < bound, store'[i]? = store[i]?)
    {choices : List OpenChoice} {plains : List PlainChoice} (hchoices : Nested bound choices)
    (h : List.Forall₂ (OpenChoice.StandsFor store) choices plains) :
    List.Forall₂ (OpenChoice.StandsFor store') choices plains := by
  induction h generalizing bound with
  | nil => exact .nil
  | @cons choice plain choices plains hfirst hothers ih =>
    have hsame' : ∀ i < choice.size, store'[i]? = store[i]? := fun i hi =>
      hsame i (Nat.lt_of_lt_of_le hi (hchoices.size choice List.mem_cons_self))
    have hrest := hfirst.rest.congr hsame' (hchoices.rest choice List.mem_cons_self)
    exact .cons ⟨hrest, hfirst.input, hfirst.untried⟩ (ih hsame' hchoices.tail)

namespace Machine

variable {t : Prediction} {m : Machine} {plain : PlainMachine}

/-- Coming back to a choice drops nothing that it or a choice outside it needs. -/
theorem mirrors_resume {store : List StoredGoal} {choices : List OpenChoice} {plains : List PlainChoice}
    (hstore : Descending store) (hchoices : Nested store.length choices)
    (h : List.Forall₂ (OpenChoice.StandsFor store) choices plains) :
    (resume store choices).Mirrors (PlainMachine.resume plains) := by
  induction h with
  | nil => exact .halted false
  | @cons choice plain choices plains hfirst hothers ih =>
    have hsize := hchoices.size choice List.mem_cons_self
    have hrest := hchoices.rest choice List.mem_cons_self
    unfold resume PlainMachine.resume
    rw [← hfirst.untried]
    cases huntried : choice.untried with
    | nil => exact ih (hchoices.tail.mono hsize)
    | cons p untried =>
      have hcut : Below (store.take choice.size).length choice.rest := by rwa [List.length_take_of_le hsize]
      have htake : ∀ i < choice.size, (store.take choice.size)[i]? = store[i]? := fun i hi => List.getElem?_take_of_lt hi
      have hsame := getElem?_pushGoals_take hsize choice.rest p
      have hle := le_length_pushGoals_take hsize choice.rest p
      obtain ⟨hdescending, hgoals⟩ := (hstore.take choice.size).pushGoals hcut p
      have hnested : Nested _ ({ choice with untried } :: choices) := Nested.cons hchoices.tail hle hrest
      have hchain := (hfirst.rest.congr htake hrest).pushGoals p
      have hstands : List.Forall₂ (OpenChoice.StandsFor (pushGoals (store.take choice.size) choice.rest p).1)
          ({ choice with untried } :: choices) ({ plain with untried } :: plains) :=
        .cons ⟨hfirst.rest.congr hsame hrest, hfirst.input, rfl⟩ (standsFor_congr hsame hchoices.tail hothers)
      exact .running ⟨hgoals, hdescending, hnested⟩ ⟨hchain, hfirst.input, hstands⟩

/-- A step of the machine is a step of the search that it stands for, and the places stay in order. -/
theorem mirrors_step (hm : m.Sound) (h : m.StandsFor plain) : (m.step t).Mirrors (plain.step t) := by
  obtain ⟨store, choices, place, input⟩ := m
  obtain ⟨goals, input', plains⟩ := plain
  obtain ⟨hgoals, rfl, hchoices⟩ := h
  have hresume : (resume store choices).Mirrors (PlainMachine.resume plains) := mirrors_resume hm.store hm.choices hchoices
  cases hgoals with
  | nil =>
    cases input with
    | nil => exact .halted true
    | cons d input => exact hresume
  | @cons place symbol next goals stored below chain =>
    cases symbol with
    | nonterminal nt =>
      let untried := t.expansions nt input.head?
      have hnested : Nested store.length (⟨next, input, store.length, untried⟩ :: choices) :=
        Nested.cons hm.choices (Nat.le_refl _) chain.below_length
      have hnew : List.Forall₂ (OpenChoice.StandsFor store) (⟨next, input, store.length, untried⟩ :: choices)
          (⟨goals, input, untried⟩ :: plains) :=
        .cons ⟨chain, rfl, rfl⟩ hchoices
      simpa [step, PlainMachine.step, stored] using mirrors_resume hm.store hnested hnew
    | terminal c =>
      cases input with
      | nil => simpa [step, PlainMachine.step, stored] using hresume
      | cons d input =>
        by_cases hcd : c = d
        · have hnext : Progress.Mirrors (.running ⟨store, choices, next, input⟩) (.running ⟨goals, input, plains⟩) :=
            .running ⟨chain.below_length, hm.store, hm.choices⟩ ⟨chain, rfl, hchoices⟩
          simpa [step, PlainMachine.step, stored, hcd] using hnext
        · simpa [step, PlainMachine.step, stored, hcd] using hresume

/-- After any number of steps the two have come to the same. -/
theorem mirrors_after (hm : m.Sound) (h : m.StandsFor plain) (steps : Nat) :
    (m.after t steps).Mirrors (plain.after t steps) := by
  induction steps generalizing m plain with
  | zero => exact .running hm h
  | succ steps ih =>
    have hstep := mirrors_step (t := t) hm h
    unfold after PlainMachine.after
    generalize m.step t = progress at hstep
    generalize plain.step t = progress' at hstep
    cases hstep with
    | halted accepted => exact .halted accepted
    | running hnext hstands => exact ih hnext hstands

/-- Under any limit the two have the same verdict after the same number of steps. -/
theorem within_eq_plain (hm : m.Sound) (h : m.StandsFor plain) (limit taken : Nat) :
    within t limit taken m = PlainMachine.within t limit taken plain := by
  induction limit generalizing taken m plain with
  | zero => rfl
  | succ limit ih =>
    have hstep := mirrors_step (t := t) hm h
    unfold within PlainMachine.within
    generalize m.step t = progress at hstep
    generalize plain.step t = progress' at hstep
    cases hstep with
    | halted accepted => rfl
    | running hnext hstands => exact ih hnext hstands (taken + 1)

/-- The places of a machine that starts are in order. -/
theorem sound_start (nt : Nonterminal) (input : List Char) : (start nt input).Sound := by
  have hstore : Descending ([] ++ [⟨.nonterminal nt, none⟩]) := Descending.nil.concat fun _ h => nomatch h
  refine ⟨?_, hstore, Nested.nil 1⟩
  intro n hn
  cases hn
  exact Nat.one_pos

/-- The machine starts as the search does. -/
theorem standsFor_start (nt : Nonterminal) (input : List Char) :
    (start nt input).StandsFor (PlainMachine.start nt input) :=
  ⟨.cons rfl (fun _ h => nomatch h) .nil, rfl, .nil⟩

/-- The goals of an open choice are in the store. -/
theorem Sound.below_length (hm : m.Sound) {choice : OpenChoice} (hchoice : choice ∈ m.choices) :
    Below m.store.length choice.rest :=
  (hm.choices.rest choice hchoice).mono (hm.choices.size choice hchoice)

end Machine

end Search

open Search

/-- Started on a word and left to itself for any number of steps, the machine never looks for a goal where none is stored. While
it runs, its places are in order: the place of its goals and those of all open choices are in the store, every goal has its
successor below it, and the lengths that open choices remember shrink outwards, each above the goals of its choice. It is always
where the search with goals as lists is, or has ended with the same verdict after the same step. So under any limit the two give
the same verdict with the same number of steps, and it is that of the recognizer. -/
theorem sharing_exact (g : Grammar) (word : String) :
    let machine := Machine.start g.start word.toList
    let plain := PlainMachine.start g.start word.toList
    (∀ steps, machine.after g.prediction steps ≠ .lost) ∧
    (∀ steps m, machine.after g.prediction steps = .running m →
      m.Sound ∧ ∀ choice ∈ m.choices, Below m.store.length choice.rest) ∧
    (∀ steps, (machine.after g.prediction steps).Mirrors (plain.after g.prediction steps)) ∧
    ∀ limit, Machine.within g.prediction limit 0 machine = PlainMachine.within g.prediction limit 0 plain ∧
      (g.recognizer (some limit)).search word = PlainMachine.within g.prediction limit 0 plain := by
  intro machine plain
  have hsound : machine.Sound := Machine.sound_start g.start word.toList
  have hstands : machine.StandsFor plain := Machine.standsFor_start g.start word.toList
  have hmirrors := Machine.mirrors_after (t := g.prediction) hsound hstands
  refine ⟨fun steps => (hmirrors steps).ne_lost, fun steps m hrunning => ?_, hmirrors, fun limit => ?_⟩
  · have hm := (hmirrors steps).sound_of_running hrunning
    exact ⟨hm, fun choice hchoice => hm.below_length hchoice⟩
  · have hplain := Machine.within_eq_plain (t := g.prediction) hsound hstands limit 0
    have hsearch : (g.recognizer (some limit)).search word = Machine.within g.prediction limit 0 machine :=
      (Machine.within_start_eq g.prediction g.start word.toList limit).symm
    exact ⟨hplain, hsearch.trans hplain⟩

/-- The second alternative stands where the first one stood before it failed. -/
example :
    (Machine.start 0 ['a', 'c']).after (Grammar.prediction ⟨0, .ofList [(0, [[.terminal 'a', .terminal 'b'],
        [.terminal 'a', .terminal 'c']])], .empty⟩) 3 =
      .running ⟨[⟨.nonterminal 0, none⟩, ⟨.terminal 'c', none⟩, ⟨.terminal 'a', some 1⟩], [⟨none, ['a', 'c'], 1, []⟩], some 2,
        ['a', 'c']⟩ := by
  decide

end TopDown
