import TopDown.Grammar.Basic

/-!
# Derivations

What a grammar generates, said without any algorithm: a step exchanges one nonterminal of a list of symbols for one of its
productions, and a nonterminal generates the words of terminals that its list of one symbol derives. An undeclared nonterminal
has no production, so it generates nothing.
-/

namespace TopDown.Grammar

/-- One step: a nonterminal is replaced by one of its productions. -/
inductive Step (g : Grammar) : List Symbol → List Symbol → Prop where
  | expand (before after : List Symbol) {nt : Nonterminal} {p : Production} (h : p ∈ g.productionsOf nt) :
      Step g (before ++ .nonterminal nt :: after) (before ++ p ++ after)

/-- Any number of steps. -/
inductive Derives (g : Grammar) : List Symbol → List Symbol → Prop where
  | refl (form : List Symbol) : Derives g form form
  | tail {first middle last : List Symbol} : Derives g first middle → Step g middle last → Derives g first last

/-- One step or more. -/
def DerivesPlus (g : Grammar) (first last : List Symbol) : Prop := ∃ middle, Step g first middle ∧ Derives g middle last

/-- The words that a nonterminal generates. -/
def Generates (g : Grammar) (nt : Nonterminal) (word : List Char) : Prop :=
  Derives g [.nonterminal nt] (Production.ofWord word)

/-- The language of a grammar: the words that its start generates. -/
def Language (g : Grammar) (word : List Char) : Prop := Generates g g.start word

end TopDown.Grammar
