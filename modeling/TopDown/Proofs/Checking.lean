import TopDown.Checking
import TopDown.Proofs.Loading
import TopDown.Proofs.Normalization
import TopDown.Proofs.Recognition

/-!
# Checks are exact

The whole way from two texts to the outcomes. The grammar of a text is well-formed, so it is normalized unless its language is
empty; the normalized grammar has the language of the one that was read and is not left-recursive, so every word is decided, and
rightly.

Main statement: `check_exact`.
-/

namespace TopDown

/-- Deciding cases keeps them as they are and in order. -/
theorem Recognizer.map_toCase_outcomes (r : Recognizer) (cases : List Case) :
    (r.outcomes cases).map Outcome.toCase = cases := by
  simp [outcomes, Function.comp_def]

section NotLeftRecursive

variable {g : Grammar} (hleft : g.leftRecursive = false)
include hleft

/-- In a grammar without left recursion, every case has a result, which says whether the word is in the language. -/
theorem Recognizer.exists_result (c : Case) :
    ∃ b, (g.recognizer none).check c.word = .ok b ∧ (b = true ↔ g.Language c.word.toList) := by
  obtain ⟨b, hb, -⟩ := exists_check_eq_ok hleft c.word
  exact ⟨b, hb, eq_true_iff_of_check hb⟩

/-- In a grammar without left recursion, a limit that is large enough for every case gives the same outcomes as none. -/
theorem Recognizer.exists_outcomes_eq (cases : List Case) :
    ∃ bound, ∀ limit, bound ≤ limit → (g.recognizer (some limit)).outcomes cases = (g.recognizer none).outcomes cases := by
  induction cases with
  | nil => exact ⟨0, fun _ _ => rfl⟩
  | cons c cases ih =>
    obtain ⟨bound, hbound⟩ := ih
    obtain ⟨b, hnone, bound', hbound'⟩ := exists_check_eq_ok hleft c.word
    refine ⟨max bound bound', fun limit hle => ?_⟩
    have hhead : (g.recognizer (some limit)).check c.word = (g.recognizer none).check c.word :=
      (hbound' limit (by omega)).trans hnone.symm
    have htail := hbound limit (by omega)
    simp only [outcomes, List.map_cons] at htail ⊢
    rw [htail, hhead]

/-- In a grammar without left recursion, every outcome has passed when every expectation is right. -/
theorem Recognizer.passed_outcomes_iff (cases : List Case) :
    (∀ o ∈ (g.recognizer none).outcomes cases, o.passed = true) ↔
      ∀ c ∈ cases, (c.expected = true ↔ g.Language c.word.toList) := by
  rw [outcomes, List.forall_mem_map]
  refine forall₂_congr fun c _ => ?_
  obtain ⟨b, hb, hlanguage⟩ := exists_result hleft c
  rw [Outcome.passed, Outcome.accepted, hb, ← hlanguage, beq_iff_eq, Bool.eq_iff_iff]
  exact iff_comm

end NotLeftRecursive

/-- A run has passed when every outcome has. -/
theorem Run.passed_iff {run : Run} : run.passed = true ↔ ∀ o ∈ run.outcomes, o.passed = true := by
  rw [passed, failures, beq_iff_eq, List.countP_eq_zero]
  simp

section Loaded

variable {grammarText wordsText : String} {g : Grammar} {cases : List Case}

/-- What a check comes to once both texts have been read. -/
theorem check_of_loaded (hg : Grammar.ofText grammarText = .ok g) (hc : WordList.ofText wordsText = .ok cases)
    (limit : Option Nat) :
    check grammarText wordsText limit = match g.normalize with
      | .ok n => .ok ⟨g, n, (n.grammar.recognizer limit).outcomes cases⟩
      | .error cause => .error (.malformed cause) := by
  unfold check
  rw [hg, hc]
  simp only [Except.mapError, bind, Except.bind]
  cases g.normalize with
  | error cause => rfl
  | ok n => rfl

/-- A check is refused for a malformed grammar when the language is empty. -/
theorem check_malformed_iff (hg : Grammar.ofText grammarText = .ok g) (hc : WordList.ofText wordsText = .ok cases)
    (limit : Option Nat) :
    (∃ cause, check grammarText wordsText limit = .error (.malformed cause)) ↔ ∀ word, ¬g.Language word := by
  have hwf := Grammar.wellFormed_of_ofText hg
  rw [check_of_loaded hg hc]
  constructor
  · rintro ⟨cause, hcause⟩ word hword
    obtain ⟨n, hn⟩ := Grammar.exists_normalize_eq_ok_iff.2 ⟨hwf, word, hword⟩
    rw [hn] at hcause
    cases hcause
  · intro hempty
    obtain ⟨start, herr⟩ := Grammar.normalize_eq_error hwf hempty
    exact ⟨_, by rw [herr]⟩

/-- A check without limit decides the language of the grammar that was read. It is refused when the language is empty.
Otherwise it ends, within so many steps for each word, with one outcome for each case in the order of the list; each result
says whether the word is in the language, and the run has passed when every expectation is right. -/
theorem check_exact (hg : Grammar.ofText grammarText = .ok g) (hc : WordList.ofText wordsText = .ok cases) :
    ((∃ cause, check grammarText wordsText none = .error (.malformed cause)) ↔ ∀ word, ¬g.Language word) ∧
      ((∃ word, g.Language word) → ∃ run, check grammarText wordsText none = .ok run ∧
        run.initial = g ∧
        run.outcomes.map Outcome.toCase = cases ∧
        (∀ o ∈ run.outcomes, ∃ b, o.result = .ok b ∧ (b = true ↔ g.Language o.word.toList)) ∧
        (run.passed = true ↔ ∀ c ∈ cases, (c.expected = true ↔ g.Language c.word.toList)) ∧
        ∃ bound, ∀ limit, bound ≤ limit → check grammarText wordsText (some limit) = .ok run) := by
  refine ⟨check_malformed_iff hg hc none, fun hword => ?_⟩
  obtain ⟨n, hn⟩ := Grammar.exists_normalize_eq_ok_iff.2 ⟨Grammar.wellFormed_of_ofText hg, hword⟩
  obtain ⟨h, hfit, ht⟩ := Grammar.exists_fit_of_normalize hn
  have hleft := ht.leftRecursive_eq_false hfit.descends
  have hlanguage : ∀ word, n.grammar.Language word ↔ g.Language word := fun word =>
    ht.language_iff.trans (hfit.language word)
  refine ⟨⟨g, n, (n.grammar.recognizer none).outcomes cases⟩, ?_, rfl, Recognizer.map_toCase_outcomes _ _, ?_, ?_, ?_⟩
  · rw [check_of_loaded hg hc, hn]
  · intro o ho
    obtain ⟨c, -, rfl⟩ := List.mem_map.1 ho
    obtain ⟨b, hb, hresult⟩ := Recognizer.exists_result hleft c
    exact ⟨b, hb, hresult.trans (hlanguage _)⟩
  · rw [Run.passed_iff, Recognizer.passed_outcomes_iff hleft]
    simp only [hlanguage]
  · obtain ⟨bound, hbound⟩ := Recognizer.exists_outcomes_eq hleft cases
    refine ⟨bound, fun limit hle => ?_⟩
    rw [check_of_loaded hg hc, hn]
    simp only [hbound limit hle]

end Loaded

/-- A grammar and a word list for which there is something to check. -/
theorem check_exact_balanced : ∃ run, check "<S>::=a<S>b|" "[true]\n\nab\n[false]\nba" none = .ok run ∧
    run.outcomes.map Outcome.toCase = [⟨"", true⟩, ⟨"ab", true⟩, ⟨"ba", false⟩] := by
  have hg : Grammar.ofText "<S>::=a<S>b|" = .ok Grammar.balanced := by decide
  have hc : WordList.ofText "[true]\n\nab\n[false]\nba" = .ok [⟨"", true⟩, ⟨"ab", true⟩, ⟨"ba", false⟩] := by decide
  have hnil : Grammar.balanced.Language [] := Grammar.startNullable_iff.1 (by decide)
  obtain ⟨run, hrun, -, hcases, -⟩ := (check_exact hg hc).2 ⟨[], hnil⟩
  exact ⟨run, hrun, hcases⟩

end TopDown
