import TopDown.Proofs.Recognition

/-!
# Searches halt

Empty productions, common beginnings, ambiguity and undeclared mentions only make a search longer; what would keep it from
ending is left recursion alone. The number of steps is fixed by the grammar and the word: a limit that allows them changes
nothing, and a smaller one cuts the search off.

Main statement: `recognizer_halts`.
-/

namespace TopDown

namespace Search

/-- In a grammar without left recursion the machine halts, with the verdict of the search without limit: under exactly the
limits that allow the steps of that verdict. -/
theorem Machine.within_start_eq_ite {g : Grammar} (h : g.leftRecursive = false) (nt : Nonterminal) (input : List Char)
    (limit : Nat) :
    let verdict := exhaust g.prediction 0 [⟨[.nonterminal nt], input⟩] (acc_stack h _)
    within g.prediction limit 0 (start nt input) = if verdict.steps ≤ limit then some verdict else none := by
  obtain ⟨enough, henough⟩ := exists_within_eq_exhaust (acc_stack h [⟨[.nonterminal nt], input⟩]) 0
  rw [within_start_eq, within_eq_ite henough limit, Nat.zero_add]

end Search

/-- In a grammar without left recursion every search without limit reaches a verdict: the machine halts after as many steps as
the verdict counts, whatever the word, and the recognizer gives its answer. -/
theorem recognizer_halts {g : Grammar} (h : g.leftRecursive = false) (word : String) :
    ∃ verdict, (g.recognizer none).search word = some verdict ∧ (g.recognizer none).check word = .ok verdict.accepted ∧
      ∀ limit, Search.Machine.within g.prediction limit 0 (.start g.start word.toList) =
        if verdict.steps ≤ limit then some verdict else none := by
  let verdict := Search.exhaust g.prediction 0 [⟨[.nonterminal g.start], word.toList⟩] (Search.acc_stack h _)
  have hsearch : (g.recognizer none).search word = some verdict := dif_pos h
  refine ⟨verdict, hsearch, ?_, Search.Machine.within_start_eq_ite h g.start word.toList⟩
  rw [Recognizer.check, hsearch]

/-- At most two `a` and then `b`, in several ways, with nonterminals that can vanish and one that is not declared. -/
def Grammar.atMostTwo : Grammar :=
  ⟨0, .ofList [(0, [[.nonterminal 1, .nonterminal 1, .terminal 'b'], [.nonterminal 7]]), (1, [[.terminal 'a'], []])], .empty⟩

/-- A word that is rejected only after every choice was tried. -/
theorem recognizer_halts_atMostTwo : Grammar.atMostTwo.leftRecursive = false ∧
    (Grammar.atMostTwo.recognizer none).check "aaa" = .ok false ∧
      Search.Machine.within Grammar.atMostTwo.prediction 11 0 (.start 0 "aaa".toList) = some ⟨false, 11⟩ ∧
      Search.Machine.within Grammar.atMostTwo.prediction 10 0 (.start 0 "aaa".toList) = none := by
  have hleft : Grammar.atMostTwo.leftRecursive = false := by decide
  obtain ⟨verdict, -, hcheck, hmachine⟩ := recognizer_halts hleft "aaa"
  have hrun : Search.Machine.within Grammar.atMostTwo.prediction 11 0 (.start 0 "aaa".toList) = some ⟨false, 11⟩ := by decide
  have hverdict : verdict = ⟨false, 11⟩ := by
    have h := (hmachine 11).symm.trans hrun
    split at h
    · exact Option.some.inj h
    · cases h
  subst hverdict
  exact ⟨hleft, hcheck, hrun, hmachine 10⟩

end TopDown
