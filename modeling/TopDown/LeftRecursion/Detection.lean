import TopDown.Leading

/-!
# Detecting left recursion

A grammar is left-recursive when some nonterminal derives, in one step or more, something that begins with itself; the symbols
before it may have vanished. Put the other way round: it is not, when every nonterminal is grounded, that is when whatever can
stand at the beginning of its productions is grounded. The grounded nonterminals are a least set, found by saturation.

Main statement: in a grammar that is not left-recursive, following leading nonterminals always ends (`acc_leads`).
-/

namespace TopDown.Grammar

/-- The declared nonterminals from which following leading nonterminals always ends: one is grounded when all its declared
leading nonterminals are. -/
def grounded (g : Grammar) : List Nonterminal :=
  let nullable := g.nullable
  saturate (g.declared.map fun nt => ⟨nt, (g.leadingNonterminals nullable nt).filter g.rules.contains⟩)

/-- Tells whether some nonterminal can derive something that begins with itself. -/
def leftRecursive (g : Grammar) : Bool :=
  let grounded := g.grounded
  g.declared.any fun nt => !grounded.contains nt

/-- One nonterminal can begin a production of another. -/
def Leads (g : Grammar) (lead nt : Nonterminal) : Prop := lead ∈ g.leadingNonterminals g.nullable nt

/-- An undeclared nonterminal has no leading nonterminal. -/
theorem not_leads_of_not_declared {g : Grammar} {lead nt : Nonterminal} (h : nt ∉ g.declared) : ¬ g.Leads lead nt := by
  intro hl
  obtain ⟨p, hp, -⟩ := List.mem_flatMap.1 hl
  exact h (Rules.mem_declared_of_mem_productionsOf hp)

/-- From an undeclared nonterminal, there is nothing to follow. -/
theorem acc_leads_of_not_declared {g : Grammar} {nt : Nonterminal} (h : nt ∉ g.declared) : Acc g.Leads nt :=
  Acc.intro _ fun _ hl => absurd hl (not_leads_of_not_declared h)

/-- From a grounded nonterminal, following leading nonterminals ends. -/
theorem acc_of_mem_grounded {g : Grammar} : ∀ nt ∈ g.grounded, Acc g.Leads nt := by
  refine saturate_induction fun c hc hbody => ?_
  obtain ⟨nt, -, rfl⟩ := List.mem_map.1 hc
  refine Acc.intro _ fun lead hl => ?_
  by_cases hd : lead ∈ g.declared
  · exact hbody lead (List.mem_filter.2 ⟨hl, Rules.contains_eq_true_iff.2 hd⟩)
  · exact acc_leads_of_not_declared hd

/-- In a grammar that is not left-recursive, following leading nonterminals ends wherever it starts. -/
theorem acc_leads {g : Grammar} (h : g.leftRecursive = false) (nt : Nonterminal) : Acc g.Leads nt := by
  by_cases hd : nt ∈ g.declared
  · have := List.any_eq_false.1 h nt hd
    exact acc_of_mem_grounded nt (by simpa using this)
  · exact acc_leads_of_not_declared hd

end TopDown.Grammar
