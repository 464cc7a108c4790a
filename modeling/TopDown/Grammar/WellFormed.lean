import TopDown.Grammar.Basic

/-!
# Well-formed grammars

A grammar is well-formed when something is declared, its start is, and so is every nonterminal that a production mentions. The
transformations that need this say why they refuse a grammar in the words of `Malformed.message`.
-/

namespace TopDown

/-- Why a grammar cannot be worked with. Nonterminals are given as they are shown. -/
inductive Malformed where
  /-- Nothing is declared. -/
  | noNonterminals
  /-- Nothing is declared, found when the nonterminals were to be ordered. -/
  | nothingToOrder
  /-- The start is not declared. -/
  | undeclaredStart (start : String)
  /-- A production of `referrer` mentions `referenced`, which is not declared. -/
  | undeclaredReference (referenced referrer : String)
  /-- The start generates no word. -/
  | startEliminated (start : String)
deriving DecidableEq, Repr

namespace Malformed

/-- The kinds of cause. -/
inductive Kind where
  | undeclaredNonterminal | startEliminated | noNonterminals
deriving DecidableEq, Repr

/-- The kind that a cause is of. -/
def kind : Malformed → Kind
  | noNonterminals | nothingToOrder => .noNonterminals
  | undeclaredStart _ | undeclaredReference .. => .undeclaredNonterminal
  | startEliminated _ => .startEliminated

/-- A kind of cause in words. -/
def Kind.describe : Kind → String
  | undeclaredNonterminal => "undeclared non-terminal"
  | startEliminated => "start symbol eliminated"
  | noNonterminals => "no non-terminals"

/-- What exactly is wrong. -/
def detail : Malformed → String
  | noNonterminals => "the grammar declares no non-terminals"
  | nothingToOrder => "there are no non-terminals to order"
  | undeclaredStart start => s!"start symbol <{start}> is not declared"
  | undeclaredReference referenced referrer => s!"<{referenced}> is referenced by <{referrer}> but never declared"
  | startEliminated start => s!"start symbol <{start}> derives no string of terminals"

/-- The whole message. -/
def message (m : Malformed) : String := "malformed grammar (" ++ m.kind.describe ++ "): " ++ m.detail

end Malformed

namespace Grammar

/-- The first mention, in stored order, of a nonterminal that is not declared. -/
def undeclaredMention? (g : Grammar) : Option (Nonterminal × Nonterminal) :=
  g.mentions.find? fun mention => !g.rules.contains mention.2

/-- Refuses a grammar that is not well-formed: one that declares nothing first, then an undeclared start, then the first
undeclared mention. -/
def validate (g : Grammar) : Except Malformed Unit :=
  if g.declared.isEmpty then .error .noNonterminals
  else if !g.rules.contains g.start then .error (.undeclaredStart (g.nameOf g.start))
  else match g.undeclaredMention? with
    | some (referrer, referenced) => .error (.undeclaredReference (g.nameOf referenced) (g.nameOf referrer))
    | none => .ok ()

end Grammar

end TopDown
