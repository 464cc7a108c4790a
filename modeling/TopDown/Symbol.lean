/-!
# Symbols and productions

A grammar here is over single characters: a terminal is a character, a nonterminal a number, and a production the list of
symbols on the right-hand side of a rule.
-/

namespace TopDown

/-- A nonterminal is a number. How it is shown is a matter of the grammar's names. -/
abbrev Nonterminal := Nat

/-- A symbol of a production. -/
inductive Symbol where
  | nonterminal (id : Nonterminal)
  | terminal (char : Char)
deriving DecidableEq, Repr

namespace Symbol

/-- The nonterminal that a symbol is, if it is one. -/
def nonterminal? : Symbol → Option Nonterminal
  | nonterminal id => some id
  | terminal _ => none

/-- The character that a symbol is, if it is a terminal. -/
def terminal? : Symbol → Option Char
  | nonterminal _ => none
  | terminal char => some char

end Symbol

/-- The right-hand side of a rule. The empty production derives the empty word at once. -/
abbrev Production := List Symbol

namespace Production

/-- The nonterminals that a production mentions, left to right, with repetition. -/
def nonterminals (p : Production) : List Nonterminal := p.filterMap Symbol.nonterminal?

/-- The characters that a production mentions, left to right, with repetition. -/
def terminals (p : Production) : List Char := p.filterMap Symbol.terminal?

/-- The word as a production of terminals. -/
def ofWord (word : List Char) : Production := word.map Symbol.terminal

@[simp] theorem mem_nonterminals {p : Production} {nt : Nonterminal} :
    nt ∈ nonterminals p ↔ Symbol.nonterminal nt ∈ p := by
  simp only [nonterminals, List.mem_filterMap]
  constructor
  · rintro ⟨s, hs, h⟩
    cases s with
    | nonterminal id => cases h; exact hs
    | terminal char => cases h
  · exact fun h => ⟨_, h, rfl⟩

end Production

end TopDown
