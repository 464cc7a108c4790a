import TopDown.Proofs.Prediction
import TopDown.Proofs.Store
import TopDown.Recognizer

/-!
# Recognition is exact

A node yields when what is left of the input is a word of what is left to be matched. A node that is not accepting yields
exactly when one of its children does, as prediction leaves out no production that a word needs. So a search that ends has
accepted exactly when some node on its stack yields, however many choices were open, whether or not it had a limit. In a grammar
without left recursion the search ends, so every limit that is large enough gives the same answer as none.

Main statements: `recognizer_exact` and `Recognizer.exists_check_eq_ok`.
-/

namespace TopDown

open Production (reading)

/-- The input that is left is a word of the goals that are left. -/
def Node.Yields (g : Grammar) (node : Node) : Prop := node.input ∈ reading g.words node.goals

namespace Node

/-- An accepting node has nothing left to do. -/
theorem isAccepting_iff {node : Node} : node.isAccepting = true ↔ node = ⟨[], []⟩ := by
  obtain ⟨goals, input⟩ := node
  simp [isAccepting]

/-- An accepting node yields. -/
theorem yields_of_isAccepting {g : Grammar} {node : Node} (h : node.isAccepting = true) : node.Yields g := by
  rw [isAccepting_iff.1 h]
  exact Production.mem_reading_nil.2 rfl

/-- A node that begins with a character yields when it reads the character and the rest yields. -/
theorem yields_terminal {g : Grammar} {c : Char} {goals : List Symbol} {input : List Char} :
    Node.Yields g ⟨.terminal c :: goals, input⟩ ↔
      ∃ child ∈ Node.children g.prediction ⟨.terminal c :: goals, input⟩, child.Yields g := by
  constructor
  · intro h
    obtain ⟨rest, hr, hinput⟩ := Production.mem_reading_terminal.1 h
    cases hinput
    exact ⟨⟨goals, rest⟩, by simp [children], hr⟩
  · rintro ⟨child, hchild, h⟩
    cases input with
    | nil => simp [children] at hchild
    | cons d input =>
      rw [children] at hchild
      split at hchild
      · rename_i hcd
        rw [List.mem_singleton.1 hchild] at h
        exact Production.mem_reading_terminal.2 ⟨input, h, by rw [hcd]⟩
      · cases hchild

/-- A node that begins with a nonterminal yields when it does with one of the productions that prediction allows. -/
theorem yields_nonterminal {g : Grammar} {nt : Nonterminal} {goals : List Symbol} {input : List Char} :
    Node.Yields g ⟨.nonterminal nt :: goals, input⟩ ↔
      ∃ child ∈ Node.children g.prediction ⟨.nonterminal nt :: goals, input⟩, child.Yields g := by
  constructor
  · intro h
    obtain ⟨u, hu, v, hv, huv⟩ := Production.mem_reading_nonterminal.1 h
    obtain ⟨p, hp, hup⟩ := Grammar.mem_words_iff.1 hu
    have hexpansion := Grammar.mem_expansions_of_mem_reading hp hup v
    have huv' : u ++ v = input := huv
    rw [huv'] at hexpansion
    exact ⟨⟨p ++ goals, input⟩, List.mem_map.2 ⟨p, hexpansion, rfl⟩, Production.mem_reading_append.2 ⟨u, hup, v, hv, huv⟩⟩
  · rintro ⟨child, hchild, h⟩
    obtain ⟨p, hp, rfl⟩ := List.mem_map.1 hchild
    obtain ⟨u, hu, v, hv, huv⟩ := Production.mem_reading_append.1 h
    have hword := Grammar.words_closed g nt p (Grammar.mem_productionsOf_of_mem_expansions hp) u hu
    exact Production.mem_reading_nonterminal.2 ⟨u, hword, v, hv, huv⟩

/-- A node yields when it is accepting or one of its children yields. -/
theorem yields_iff {g : Grammar} {node : Node} :
    node.Yields g ↔ node.isAccepting = true ∨ ∃ child ∈ node.children g.prediction, child.Yields g := by
  constructor
  · intro h
    obtain ⟨goals, input⟩ := node
    cases goals with
    | nil =>
      have hinput : input = [] := Production.mem_reading_nil.1 h
      exact Or.inl (isAccepting_iff.2 (by rw [hinput]))
    | cons s goals =>
      cases s with
      | terminal c => exact Or.inr (yields_terminal.1 h)
      | nonterminal nt => exact Or.inr (yields_nonterminal.1 h)
  · rintro (h | ⟨child, hchild, h⟩)
    · exact yields_of_isAccepting h
    · obtain ⟨goals, input⟩ := node
      cases goals with
      | nil => simp [children] at hchild
      | cons s goals =>
        cases s with
        | terminal c => exact yields_terminal.2 ⟨child, hchild, h⟩
        | nonterminal nt => exact yields_nonterminal.2 ⟨child, hchild, h⟩

end Node

namespace Search

/-- Visiting a node that is not accepting keeps whether something on the stack yields. -/
theorem exists_yields_cons_iff {g : Grammar} {node : Node} {rest : List Node} (h : node.isAccepting = false) :
    (∃ n ∈ node :: rest, n.Yields g) ↔ ∃ n ∈ node.children g.prediction ++ rest, n.Yields g := by
  simp only [List.mem_cons, List.mem_append, or_and_right, exists_or, exists_eq_left]
  rw [Node.yields_iff, h]
  simp only [Bool.false_eq_true, false_or]

/-- A search that ends has accepted when something on its stack yields, and not otherwise. -/
theorem accepted_of_within {g : Grammar} (limit : Nat) {taken : Nat} {stack : List Node} {verdict : Verdict}
    (h : within g.prediction limit taken stack = some verdict) :
    verdict.accepted = true ↔ ∃ node ∈ stack, node.Yields g := by
  induction limit generalizing taken stack with
  | zero =>
    cases stack with
    | nil =>
      cases h
      simp
    | cons node rest => cases h
  | succ limit ih =>
    cases stack with
    | nil =>
      cases h
      simp
    | cons node rest =>
      rw [within] at h
      split at h
      · rename_i ha
        cases h
        exact ⟨fun _ => ⟨node, List.mem_cons_self, Node.yields_of_isAccepting ha⟩, fun _ => rfl⟩
      · rename_i ha
        exact (ih h).trans (exists_yields_cons_iff (Bool.eq_false_iff.2 ha)).symm

/-- The same for a search without limit. -/
theorem accepted_exhaust_iff {g : Grammar} {taken : Nat} {stack : List Node} (ends : Acc (Follows g.prediction) stack) :
    (exhaust g.prediction taken stack ends).accepted = true ↔ ∃ node ∈ stack, node.Yields g := by
  obtain ⟨limit, h⟩ := exists_within_eq_exhaust ends taken
  exact accepted_of_within limit h

/-- The steps of a verdict include those that were taken before. -/
theorem le_steps_of_within {t : Prediction} {limit taken : Nat} {stack : List Node} {verdict : Verdict}
    (h : within t limit taken stack = some verdict) : taken ≤ verdict.steps := by
  induction limit generalizing taken stack with
  | zero =>
    cases stack with
    | nil =>
      cases h
      exact Nat.le_refl taken
    | cons node rest => cases h
  | succ limit ih =>
    cases stack with
    | nil =>
      cases h
      exact Nat.le_refl taken
    | cons node rest =>
      rw [within] at h
      split at h
      · cases h
        exact Nat.le_succ taken
      · exact Nat.le_of_succ_le (ih h)

/-- A search that ends under some limit does so in the same way under every limit that allows its steps, and under no other. -/
theorem within_eq_ite {t : Prediction} {limit taken : Nat} {stack : List Node} {verdict : Verdict}
    (h : within t limit taken stack = some verdict) (more : Nat) :
    within t more taken stack = if verdict.steps ≤ taken + more then some verdict else none := by
  induction limit generalizing more taken stack with
  | zero =>
    cases stack with
    | nil =>
      cases h
      simp
    | cons node rest => cases h
  | succ limit ih =>
    cases stack with
    | nil =>
      cases h
      simp
    | cons node rest =>
      rw [within] at h
      split at h
      · rename_i ha
        cases h
        cases more with
        | zero => simp [within]
        | succ more => simp [within, ha]
      · rename_i ha
        cases more with
        | zero =>
          have hlt : taken + 1 ≤ verdict.steps := le_steps_of_within h
          rw [within, if_neg (by omega)]
        | succ more =>
          rw [within, if_neg ha, ih h more]
          simp only [Nat.add_right_comm taken 1 more, Nat.add_assoc]

/-- The stack that a search for a word begins with yields when the nonterminal generates the word. -/
theorem exists_yields_start_iff {g : Grammar} {nt : Nonterminal} {word : List Char} :
    (∃ node ∈ [(⟨[.nonterminal nt], word⟩ : Node)], node.Yields g) ↔ word ∈ g.words nt := by
  simp only [List.mem_singleton, exists_eq_left]
  rw [Node.Yields, Production.reading_singleton]

end Search

namespace Recognizer

/-- The verdict of a search is right, whatever the grammar and the limit. -/
theorem accepted_of_search {r : Recognizer} {word : String} {verdict : Verdict} (h : r.search word = some verdict) :
    verdict.accepted = true ↔ r.grammar.Language word.toList := by
  obtain ⟨g, limit, prediction, leftRecursive, rfl, rfl⟩ := r
  refine Iff.trans ?_ Search.exists_yields_start_iff
  unfold search at h
  split at h
  · exact Search.accepted_of_within _ h
  · split at h
    · cases h
      exact Search.accepted_exhaust_iff _
    · exact Search.accepted_of_within _ h

/-- What a recognizer says of a word, unless it gives up, is right. -/
theorem eq_true_iff_of_check {r : Recognizer} {word : String} {b : Bool} (h : r.check word = .ok b) :
    b = true ↔ r.grammar.Language word.toList := by
  unfold check at h
  split at h
  · rename_i verdict hv
    cases h
    exact accepted_of_search hv
  · cases h

/-- In a grammar without left recursion a recognizer without limit answers, and so does one with a limit that is large enough,
with the same answer. -/
theorem exists_check_eq_ok {g : Grammar} (h : g.leftRecursive = false) (word : String) :
    ∃ b, (g.recognizer none).check word = .ok b ∧
      ∃ bound, ∀ limit, bound ≤ limit → (g.recognizer (some limit)).check word = .ok b := by
  let stack : List Node := [⟨[.nonterminal g.start], word.toList⟩]
  let ends := Search.acc_stack h stack
  have hnone : (g.recognizer none).search word = some (Search.exhaust g.prediction 0 stack ends) := dif_pos h
  obtain ⟨enough, henough⟩ := Search.exists_within_eq_exhaust ends 0
  refine ⟨_, by rw [check, hnone], (Search.exhaust g.prediction 0 stack ends).steps, fun limit hle => ?_⟩
  have hsome : (g.recognizer (some limit)).search word = some (Search.exhaust g.prediction 0 stack ends) :=
    (Search.within_eq_ite henough limit).trans (if_pos (by omega))
  rw [check, hsome]

end Recognizer

/-- The verdict on a word is exact, whatever the grammar and whether or not there is a limit: what is accepted is in the
language, and what is rejected is not. The machine whose open choices share their goals is as exact. -/
theorem recognizer_exact (g : Grammar) (limit : Option Nat) (word : String) :
    (∀ b, (g.recognizer limit).check word = .ok b → (b = true ↔ g.Language word.toList)) ∧
      ∀ bound verdict, Search.Machine.within g.prediction bound 0 (.start g.start word.toList) = some verdict →
        (verdict.accepted = true ↔ g.Language word.toList) := by
  constructor
  · intro b hb
    exact Recognizer.eq_true_iff_of_check hb
  · intro bound verdict hv
    rw [Search.Machine.within_start_eq] at hv
    exact (Search.accepted_of_within bound hv).trans Search.exists_yields_start_iff

/-- Some `a` and then as many `b`. -/
def Grammar.balanced : Grammar :=
  ⟨0, .ofList [(0, [[.terminal 'a', .nonterminal 0, .terminal 'b'], []])], .ofList [(0, "S")]⟩

/-- Words of the grammar are accepted and others are not. -/
theorem recognizer_exact_balanced :
    Grammar.balanced.Language "aabb".toList ∧ ¬Grammar.balanced.Language "aab".toList ∧
      Grammar.balanced.Language "ab".toList := by
  have hyes : (Grammar.balanced.recognizer (some 20)).check "aabb" = .ok true := by decide
  have hno : (Grammar.balanced.recognizer (some 20)).check "aab" = .ok false := by decide
  have hmachine : Search.Machine.within Grammar.balanced.prediction 20 0 (.start 0 "ab".toList) = some ⟨true, 5⟩ := by decide
  refine ⟨((recognizer_exact _ _ _).1 true hyes).1 rfl, fun h => ?_, ((recognizer_exact _ none _).2 20 _ hmachine).1 rfl⟩
  exact absurd (((recognizer_exact _ _ _).1 false hno).2 h) Bool.false_ne_true

end TopDown
