import TopDown.Proofs.Normalization
import TopDown.Proofs.Recognition

/-!
# Step limits

What the machine does is fixed by the state it starts from; a limit only decides whether it may come to the end. A run that halts
is seen by exactly the limits that allow all of its steps, the last one included. Every smaller limit gives the search up, and so
does every limit when the run goes on for ever. So a word that is accepted under one limit is accepted under every larger one.

Main statements: `Search.Machine.within_eq_some_iff` (a run) and `step_limit_exact`.
-/

namespace TopDown

namespace Search

namespace Machine

variable {t : Prediction} {m m' : Machine} {steps steps' : Nat} {accepted accepted' : Bool}

/-! ## Runs without limit -/

/-- Left to itself, the machine halts with a verdict after so many steps. The step that finds the verdict counts. -/
inductive Halts (t : Prediction) : Machine → Nat → Bool → Prop where
  | last {m : Machine} {accepted : Bool} (step : m.step t = .halted accepted) : Halts t m 1 accepted
  | next {m m' : Machine} {steps : Nat} {accepted : Bool} (step : m.step t = .running m') (rest : Halts t m' steps accepted) :
      Halts t m (steps + 1) accepted

/-- A machine whose step is its last halts after it, and in no other way. -/
theorem halts_iff_of_halted (h : m.step t = .halted accepted) :
    Halts t m steps accepted' ↔ steps = 1 ∧ accepted' = accepted := by
  constructor
  · rintro (⟨step⟩ | ⟨step, rest⟩) <;> rw [h] at step <;> cases step
    exact ⟨rfl, rfl⟩
  · rintro ⟨rfl, rfl⟩
    exact .last h

/-- A machine that goes on halts as the next one does, one step later. -/
theorem halts_iff_of_running (h : m.step t = .running m') :
    Halts t m steps accepted ↔ ∃ later, steps = later + 1 ∧ Halts t m' later accepted := by
  constructor
  · rintro (⟨step⟩ | ⟨step, rest⟩) <;> rw [h] at step <;> cases step
    exact ⟨_, rfl, rest⟩
  · rintro ⟨later, rfl, rest⟩
    exact .next h rest

/-- A machine that finds no goal where it looks does not halt. -/
theorem not_halts_of_lost (h : m.step t = .lost) : ¬Halts t m steps accepted := by
  rintro (⟨step⟩ | ⟨step, rest⟩) <;> rw [h] at step <;> cases step

/-- A run takes at least one step. -/
theorem Halts.steps_pos (h : Halts t m steps accepted) : 0 < steps := by
  cases h with
  | last => exact Nat.one_pos
  | next => exact Nat.succ_pos _

/-- A machine halts in at most one way. -/
theorem Halts.unique (h : Halts t m steps accepted) (h' : Halts t m steps' accepted') :
    steps' = steps ∧ accepted' = accepted := by
  induction h generalizing steps' with
  | last step => exact (halts_iff_of_halted step).1 h'
  | next step rest ih =>
    obtain ⟨later, rfl, rest'⟩ := (halts_iff_of_running step).1 h'
    exact ⟨congrArg (· + 1) (ih rest').1, (ih rest').2⟩

/-! ## Runs under a limit -/

/-- A run under a limit reaches a verdict when the run without limit does and the limit allows its steps. -/
theorem within_eq_some_iff {limit taken : Nat} {verdict : Verdict} :
    within t limit taken m = some verdict ↔
      ∃ steps, steps ≤ limit ∧ verdict.steps = taken + steps ∧ Halts t m steps verdict.accepted := by
  induction limit generalizing taken m with
  | zero =>
    constructor
    · exact fun h => nomatch h
    · rintro ⟨steps, hle, -, halts⟩
      exact absurd halts.steps_pos (Nat.not_lt.2 hle)
  | succ limit ih =>
    rw [within]
    cases hstep : m.step t with
    | halted accepted =>
      simp only [halts_iff_of_halted hstep]
      constructor
      · intro h
        cases h
        exact ⟨1, Nat.le_add_left 1 limit, rfl, rfl, rfl⟩
      · rintro ⟨_, -, hsteps, rfl, haccepted⟩
        rw [← hsteps, ← haccepted]
    | running m' =>
      simp only [halts_iff_of_running hstep, ih]
      constructor
      · rintro ⟨steps, hle, hsteps, halts⟩
        exact ⟨steps + 1, Nat.succ_le_succ hle, by omega, steps, rfl, halts⟩
      · rintro ⟨_, hle, hsteps, steps, rfl, halts⟩
        exact ⟨steps, Nat.le_of_succ_le_succ hle, by omega, halts⟩
    | lost => simp only [not_halts_of_lost hstep, and_false, exists_false, reduceCtorEq]

/-- A limit on a run from the beginning is compared with the steps of its verdict. -/
theorem within_zero_eq_some_iff {limit : Nat} {verdict : Verdict} :
    within t limit 0 m = some verdict ↔ verdict.steps ≤ limit ∧ Halts t m verdict.steps verdict.accepted := by
  rw [within_eq_some_iff]
  constructor
  · rintro ⟨steps, hle, hsteps, halts⟩
    rw [Nat.zero_add] at hsteps
    rw [hsteps]
    exact ⟨hle, halts⟩
  · rintro ⟨hle, halts⟩
    exact ⟨verdict.steps, hle, (Nat.zero_add _).symm, halts⟩

end Machine

/-- A nonterminal whose first production to be tried begins with itself is expanded for ever, whatever else is open. -/
theorem within_eq_none_of_first {t : Prediction} {nt : Nonterminal} {input : List Char} {tail : Production}
    {others : List Production} (h : t.expansions nt input.head? = (.nonterminal nt :: tail) :: others) (limit : Nat) :
    ∀ (taken : Nat) (goals : List Symbol) (rest : List Node),
      within t limit taken (⟨.nonterminal nt :: goals, input⟩ :: rest) = none := by
  induction limit with
  | zero => exact fun _ _ _ => rfl
  | succ limit ih =>
    intro taken goals rest
    have haccepting : Node.isAccepting ⟨.nonterminal nt :: goals, input⟩ = false := rfl
    rw [within, haccepting, Node.children, h]
    exact ih (taken + 1) (tail ++ goals) _

end Search

open Search

/-- The machine for a grammar, started on a word and left to itself, halts with a verdict after so many steps. -/
def Grammar.HaltsOn (g : Grammar) (word : String) (steps : Nat) (accepted : Bool) : Prop :=
  Machine.Halts g.prediction (.start g.start word.toList) steps accepted

namespace Recognizer

variable {g : Grammar} {word : String} {limit : Nat} {verdict : Verdict}

/-! ## What a recognizer finds -/

/-- With a limit a search has a verdict when the machine halts with it and the limit allows its steps. -/
theorem search_some_eq_some_iff :
    (g.recognizer (some limit)).search word = some verdict ↔
      verdict.steps ≤ limit ∧ g.HaltsOn word verdict.steps verdict.accepted := by
  have hmachine : (g.recognizer (some limit)).search word = Machine.within g.prediction limit 0 (.start g.start word.toList) :=
    (Machine.within_start_eq g.prediction g.start word.toList limit).symm
  rw [hmachine, Machine.within_zero_eq_some_iff]
  rfl

/-- Without a limit a search has a verdict when the machine halts with it, unless the grammar is left-recursive and the step
counter is full before. -/
theorem search_none_eq_some_iff :
    (g.recognizer none).search word = some verdict ↔
      (verdict.steps ≤ maxSteps ∨ g.leftRecursive = false) ∧ g.HaltsOn word verdict.steps verdict.accepted := by
  by_cases hleft : g.leftRecursive = false
  · let ends := acc_stack hleft [⟨[.nonterminal g.start], word.toList⟩]
    have hsearch : (g.recognizer none).search word = some (exhaust g.prediction 0 _ ends) := dif_pos hleft
    rw [hsearch]
    constructor
    · intro h
      cases h
      obtain ⟨limit, hwithin⟩ := exists_within_eq_exhaust ends 0
      exact ⟨.inr hleft, (search_some_eq_some_iff.1 hwithin).2⟩
    · rintro ⟨-, halts⟩
      have hwithin := search_some_eq_some_iff.2 ⟨Nat.le_refl _, halts⟩
      exact congrArg some (exhaust_eq_of_within _ ends hwithin)
  · have hsearch : (g.recognizer none).search word = (g.recognizer (some maxSteps)).search word := dif_neg hleft
    rw [hsearch, search_some_eq_some_iff, or_iff_left hleft]

/-- A word is accepted when the search has a verdict that says so. -/
theorem accepts_iff {r : Recognizer} : r.accepts word = true ↔ ∃ steps, r.search word = some ⟨true, steps⟩ := by
  unfold accepts check
  cases r.search word with
  | none => simp [Except.toOption]
  | some verdict =>
    obtain ⟨accepted, steps⟩ := verdict
    simp [Except.toOption]

/-- A search with a limit that allows the steps of the machine gives the verdict of the machine, and any other is given up. -/
theorem check_of_haltsOn {steps : Nat} {accepted : Bool} (h : g.HaltsOn word steps accepted) (limit : Nat) :
    (g.recognizer (some limit)).check word = if steps ≤ limit then .ok accepted else .error ⟨limit⟩ := by
  unfold check
  split
  · rename_i verdict hverdict
    obtain ⟨hle, halts⟩ := search_some_eq_some_iff.1 hverdict
    obtain ⟨hsteps, haccepted⟩ := Machine.Halts.unique h halts
    rw [if_pos (hsteps ▸ hle), haccepted]
  · rename_i hnone
    have hlt : ¬steps ≤ limit := fun hle => by
      have hsome : (g.recognizer (some limit)).search word = some ⟨accepted, steps⟩ := search_some_eq_some_iff.2 ⟨hle, h⟩
      rw [hnone] at hsome
      cases hsome
    rw [if_neg hlt]
    rfl

/-- A search on which the machine does not halt is given up under every limit. -/
theorem check_of_not_haltsOn (h : ¬∃ steps accepted, g.HaltsOn word steps accepted) (limit : Nat) :
    (g.recognizer (some limit)).check word = .error ⟨limit⟩ := by
  unfold check
  split
  · rename_i verdict hverdict
    exact absurd ⟨_, _, (search_some_eq_some_iff.1 hverdict).2⟩ h
  · rfl

end Recognizer

/-- A step limit only cuts a search off, at an exact threshold. What a recognizer without limit reports is what the machine halts
with, and after as many steps. Under a limit that allows these steps the verdict is the same; a smaller one gives the search up
and reports itself, and so does every limit if the machine never halts. So a word that is accepted under one limit is accepted
under every larger one, by the machine itself and, as limits are words of 64 bits like the step counter, without a limit. -/
theorem step_limit_exact (g : Grammar) (word : String) :
    (∀ steps accepted, (g.recognizer none).search word = some ⟨accepted, steps⟩ ↔
      (steps ≤ Recognizer.maxSteps ∨ g.leftRecursive = false) ∧ g.HaltsOn word steps accepted) ∧
    (∀ steps accepted, g.HaltsOn word steps accepted → ∀ limit,
      (g.recognizer (some limit)).check word = if steps ≤ limit then .ok accepted else .error ⟨limit⟩) ∧
    ((¬∃ steps accepted, g.HaltsOn word steps accepted) → ∀ limit,
      (g.recognizer (some limit)).check word = .error ⟨limit⟩) ∧
    ∀ limit, (g.recognizer (some limit)).accepts word = true →
      (∀ more, limit ≤ more → (g.recognizer (some more)).accepts word = true) ∧ (∃ steps, g.HaltsOn word steps true) ∧
        (limit ≤ Recognizer.maxSteps → (g.recognizer none).accepts word = true) := by
  refine ⟨fun steps accepted => Recognizer.search_none_eq_some_iff, fun steps accepted => Recognizer.check_of_haltsOn,
    Recognizer.check_of_not_haltsOn, fun limit h => ?_⟩
  obtain ⟨steps, hsearch⟩ := Recognizer.accepts_iff.1 h
  obtain ⟨hle, halts⟩ := Recognizer.search_some_eq_some_iff.1 hsearch
  refine ⟨fun more hmore => ?_, ⟨steps, halts⟩, fun hmax => ?_⟩
  · exact Recognizer.accepts_iff.2 ⟨steps, Recognizer.search_some_eq_some_iff.2 ⟨Nat.le_trans hle hmore, halts⟩⟩
  · exact Recognizer.accepts_iff.2 ⟨steps, Recognizer.search_none_eq_some_iff.2 ⟨.inl (Nat.le_trans hle hmax), halts⟩⟩

/-- In the grammar of runs the empty word takes two steps, which a limit of one does not allow, and a word of one `a` is expanded
for ever, which no limit allows. -/
theorem step_limit_exact_runs :
    Grammar.runs.HaltsOn "" 2 true ∧ (Grammar.runs.recognizer (some 2)).check "" = .ok true ∧
      (Grammar.runs.recognizer (some 1)).check "" = .error ⟨1⟩ ∧ (Grammar.runs.recognizer none).accepts "" = true ∧
      (¬∃ steps accepted, Grammar.runs.HaltsOn "a" steps accepted) ∧
      ∀ limit, (Grammar.runs.recognizer (some limit)).check "a" = .error ⟨limit⟩ := by
  obtain ⟨-, hhalts, -, haccepts⟩ := step_limit_exact Grammar.runs ""
  obtain ⟨-, -, hnever, -⟩ := step_limit_exact Grammar.runs "a"
  have hsearch : (Grammar.runs.recognizer (some 2)).search "" = some ⟨true, 2⟩ := by decide
  have hempty : Grammar.runs.HaltsOn "" 2 true := (Recognizer.search_some_eq_some_iff.1 hsearch).2
  have haccepted : (Grammar.runs.recognizer (some 2)).accepts "" = true := by decide
  have hforever : ¬∃ steps accepted, Grammar.runs.HaltsOn "a" steps accepted := by
    rintro ⟨steps, accepted, halts⟩
    have hfirst : Grammar.runs.prediction.expansions 0 (some 'a') = [[.nonterminal 0, .terminal 'a'], []] := by decide
    have hsome : (Grammar.runs.recognizer (some steps)).search "a" = some ⟨accepted, steps⟩ :=
      Recognizer.search_some_eq_some_iff.2 ⟨Nat.le_refl steps, halts⟩
    have hnone : (Grammar.runs.recognizer (some steps)).search "a" = none := within_eq_none_of_first hfirst steps 0 [] []
    rw [hnone] at hsome
    cases hsome
  have hunlimited : (Grammar.runs.recognizer none).accepts "" = true := (haccepts 2 haccepted).2.2 (by decide)
  exact ⟨hempty, hhalts 2 true hempty 2, hhalts 2 true hempty 1, hunlimited, hforever, hnever hforever⟩

end TopDown
