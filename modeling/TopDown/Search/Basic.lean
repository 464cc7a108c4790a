import TopDown.Prediction

/-!
# Search

Recognition as a search for a leftmost derivation. A node is what is left to do: goals, the symbols still to be matched, and the
input still to be read. A terminal goal is matched against the next character; a nonterminal goal is exchanged for each
production that the prediction table allows. The nodes still to be visited form a stack, so a choice is explored completely
before the next one is tried, across everything that was matched in between. A node with no goal and no input left is success;
an empty stack is failure. Visiting a node is one step.
-/

namespace TopDown

/-- What is left to do at one point of a search. -/
structure Node where
  goals : List Symbol
  input : List Char
deriving DecidableEq, Repr

/-- Nothing is left to do. -/
def Node.isAccepting (node : Node) : Bool := node.goals.isEmpty && node.input.isEmpty

/-- What a node leads to, in the order in which it is tried. -/
def Node.children (t : Prediction) : Node → List Node
  | ⟨.terminal c :: goals, d :: input⟩ => if c = d then [⟨goals, input⟩] else []
  | ⟨.nonterminal nt :: goals, input⟩ => (t.expansions nt input.head?).map fun p => ⟨p ++ goals, input⟩
  | _ => []

/-- The outcome of a search that ended, and how many nodes it visited. -/
structure Verdict where
  accepted : Bool
  steps : Nat
deriving DecidableEq, Repr

namespace Search

/-- A search that gives up when it would visit more than `limit` further nodes; `taken` counts those visited before. -/
def within (t : Prediction) : (limit taken : Nat) → (stack : List Node) → Option Verdict
  | _, taken, [] => some ⟨false, taken⟩
  | 0, _, _ :: _ => none
  | limit + 1, taken, node :: stack =>
    if node.isAccepting then some ⟨true, taken + 1⟩
    else within t limit (taken + 1) (node.children t ++ stack)

@[simp] theorem within_nil (t : Prediction) (limit taken : Nat) : within t limit taken [] = some ⟨false, taken⟩ := by
  cases limit <;> rfl

/-- One stack follows another when its first node gave way to its children. -/
def Follows (t : Prediction) (next stack : List Node) : Prop :=
  ∃ node rest, stack = node :: rest ∧ next = node.children t ++ rest

/-- A search without limit, on a stack from which every search ends. -/
def exhaust (t : Prediction) (taken : Nat) (stack : List Node) (ends : Acc (Follows t) stack) : Verdict :=
  match stack, ends with
  | [], _ => ⟨false, taken⟩
  | node :: rest, ends =>
    if node.isAccepting then ⟨true, taken + 1⟩
    else exhaust t (taken + 1) (node.children t ++ rest) (ends.inv ⟨node, rest, rfl, rfl⟩)
termination_by (⟨stack, ends⟩ : { stack // Acc (Follows t) stack })
decreasing_by exact ⟨_, _, rfl, rfl⟩

/-- Without a limit a search has the verdict that it has under any limit that lets it end. -/
theorem exhaust_eq_of_within {t : Prediction} {verdict : Verdict} (limit : Nat) :
    ∀ {taken : Nat} {stack : List Node} (ends : Acc (Follows t) stack),
      within t limit taken stack = some verdict → exhaust t taken stack ends = verdict := by
  induction limit with
  | zero =>
    intro taken stack ends h
    cases stack with
    | nil => rw [exhaust]; simpa using h
    | cons node rest => cases h
  | succ limit ih =>
    intro taken stack ends h
    cases stack with
    | nil => rw [exhaust]; simpa using h
    | cons node rest =>
      rw [exhaust]
      rw [within] at h
      split
      · rename_i hn
        rw [if_pos hn] at h
        exact Option.some.inj h
      · rename_i hn
        rw [if_neg hn] at h
        exact ih _ h

/-- A search that ends does so under some limit, with the same verdict. -/
theorem exists_within_eq_exhaust {t : Prediction} {stack : List Node} (ends : Acc (Follows t) stack) :
    ∀ taken : Nat, ∃ limit, within t limit taken stack = some (exhaust t taken stack ends) := by
  induction ends with
  | intro stack _ ih =>
    intro taken
    cases stack with
    | nil => exact ⟨0, by rw [exhaust, within_nil]⟩
    | cons node rest =>
      rw [exhaust]
      obtain ⟨limit, h⟩ := ih (node.children t ++ rest) ⟨node, rest, rfl, rfl⟩ (taken + 1)
      refine ⟨limit + 1, ?_⟩
      rw [within]
      split
      · rfl
      · exact h

end Search

end TopDown
