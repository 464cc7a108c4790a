import TopDown.LeftRecursion.Detection
import TopDown.Search.Basic

/-!
# Searches that end

A search in a grammar without left recursion always ends. For one input length at a time: a terminal goal shortens the input, so
only nonterminal goals matter. A nonterminal goal gives way to a production, which begins with a leading nonterminal, and
following leading nonterminals ends. What stands behind a goal matters only if the goal can vanish, and then it too is leading.

Main statement: `acc_stack`, every stack of such a grammar is one from which every search ends.
-/

namespace TopDown.Search

/-- One node is a child of another. -/
def Child (t : Prediction) (child node : Node) : Prop := child ∈ node.children t

/-- Whatever the input of this length, searches from these goals end. -/
def Ends (t : Prediction) (length : Nat) (goals : List Symbol) : Prop :=
  ∀ input : List Char, input.length = length → Acc (Child t) ⟨goals, input⟩

theorem ends_nil (t : Prediction) (length : Nat) : Ends t length [] := fun _ _ =>
  Acc.intro _ fun child h => by simp [Child, Node.children] at h

/-- A terminal goal shortens the input. -/
theorem ends_terminal {t : Prediction} {length : Nat} (shorter : ∀ m < length, ∀ goals, Ends t m goals) (c : Char)
    (goals : List Symbol) : Ends t length (.terminal c :: goals) := by
  intro input hlen
  refine Acc.intro _ fun child h => ?_
  cases input with
  | nil => simp [Child, Node.children] at h
  | cons d input =>
    simp only [Child, Node.children] at h
    split at h
    · rw [List.mem_singleton.1 h]
      exact shorter input.length (by simp at hlen; omega) goals input rfl
    · cases h

/-- A nonterminal goal ends if whatever takes its place does. -/
theorem ends_nonterminal {g : Grammar} {length : Nat} {nt : Nonterminal} {goals : List Symbol}
    (h : ∀ p ∈ g.productionsOf nt, Ends g.prediction length (p ++ goals)) :
    Ends g.prediction length (.nonterminal nt :: goals) := by
  intro input hlen
  refine Acc.intro _ fun child hc => ?_
  obtain ⟨p, hp, rfl⟩ := List.mem_map.1 hc
  exact h p (Grammar.mem_productionsOf_of_mem_expansions hp) input hlen

/-- A production ends if its leading nonterminals do and, in case it can vanish, what stands behind it does. -/
theorem ends_production {t : Prediction} {length : Nat} (nullable : List Nonterminal)
    (shorter : ∀ m < length, ∀ goals, Ends t m goals) {goals : List Symbol} :
    ∀ p : Production,
      (∀ lead ∈ Production.leadingNonterminals nullable p, ∀ rest : List Symbol,
        (lead ∈ nullable → Ends t length rest) → Ends t length (.nonterminal lead :: rest)) →
      (Production.isNullable nullable p = true → Ends t length goals) → Ends t length (p ++ goals)
  | [], _, hg => hg rfl
  | .terminal c :: p, _, _ => ends_terminal shorter c (p ++ goals)
  | .nonterminal nt :: p, hlead, hg => by
    refine hlead nt (by simp [Production.leadingNonterminals]) (p ++ goals) fun hn => ?_
    have hn : nullable.contains nt = true := List.contains_iff_mem.2 hn
    refine ends_production nullable shorter p (fun lead hl => hlead lead ?_) fun hp => hg ?_
    · simp only [Production.leadingNonterminals, if_pos hn]
      exact List.mem_cons_of_mem _ hl
    · simp only [Production.isNullable, List.all_cons, Symbol.isOmittable, hn, Bool.true_and]
      exact hp

/-- A nonterminal from which following leading nonterminals ends can be put in front of any goals that end, and of any goals
at all if it cannot vanish. -/
theorem ends_of_acc_leads {g : Grammar} {length : Nat} (shorter : ∀ m < length, ∀ goals, Ends g.prediction m goals)
    {nt : Nonterminal} (h : Acc g.Leads nt) :
    ∀ goals : List Symbol, (nt ∈ g.nullable → Ends g.prediction length goals) →
      Ends g.prediction length (.nonterminal nt :: goals) := by
  induction h with
  | intro nt _ ih =>
    intro goals hg
    refine ends_nonterminal fun p hp => ends_production g.nullable shorter p (fun lead hl => ?_) fun hn => ?_
    · exact ih lead (List.mem_flatMap.2 ⟨p, hp, hl⟩)
    · exact hg (Grammar.mem_nullable_of_isNullable hp hn)

/-- In a grammar without left recursion, searches end from any goals. -/
theorem ends_of_not_leftRecursive {g : Grammar} (h : g.leftRecursive = false) (length : Nat) :
    ∀ goals : List Symbol, Ends g.prediction length goals := by
  induction length using Nat.strongRecOn with
  | ind length shorter =>
    intro goals
    induction goals with
    | nil => exact ends_nil _ _
    | cons s goals ih =>
      cases s with
      | terminal c => exact ends_terminal shorter c goals
      | nonterminal nt => exact ends_of_acc_leads shorter (Grammar.acc_leads h nt) goals fun _ => ih

/-- Nodes from which searches end can be put on a stack from which searches end. -/
theorem acc_append {t : Prediction} {nodes stack : List Node}
    (h : ∀ node ∈ nodes, ∀ rest, Acc (Follows t) rest → Acc (Follows t) (node :: rest)) (hs : Acc (Follows t) stack) :
    Acc (Follows t) (nodes ++ stack) := by
  induction nodes with
  | nil => exact hs
  | cons node nodes ih =>
    exact h node List.mem_cons_self _ (ih fun n hn => h n (List.mem_cons_of_mem _ hn))

/-- A node from which searches end can be put on a stack from which searches end. -/
theorem acc_cons {t : Prediction} {node : Node} (h : Acc (Child t) node) :
    ∀ stack, Acc (Follows t) stack → Acc (Follows t) (node :: stack) := by
  induction h with
  | intro node _ ih =>
    intro stack hs
    refine Acc.intro _ ?_
    rintro _ ⟨node', rest, heq, rfl⟩
    cases heq
    exact acc_append (fun child hc => ih child hc) hs

/-- In a grammar without left recursion, searches end from any stack. -/
theorem acc_stack {g : Grammar} (h : g.leftRecursive = false) (stack : List Node) :
    Acc (Follows g.prediction) stack := by
  induction stack with
  | nil => exact Acc.intro _ fun _ hf => by obtain ⟨_, _, heq, -⟩ := hf; cases heq
  | cons node stack ih => exact acc_cons (ends_of_not_leftRecursive h node.input.length node.goals node.input rfl) stack ih

end TopDown.Search
