import TopDown.Grammar.WellFormed
import TopDown.Layers
import TopDown.Saturation

/-!
# Trimming

A nonterminal is productive when it generates some word, and reachable when the start leads to it. A trimmed grammar has only
nonterminals that are both, and only productions without any other. The order matters: reachability is judged after the
unproductive nonterminals are gone, because they can be all that leads to a productive one.
-/

namespace TopDown

/-- Tells whether every nonterminal of a production is in the list. -/
def Production.isWithin (nts : List Nonterminal) (p : Production) : Bool :=
  (Production.nonterminals p).all fun nt => nts.contains nt

namespace Grammar

/-- The nonterminals that generate some word: one does when all nonterminals of one of its productions do. -/
def productive (g : Grammar) : List Nonterminal :=
  saturate (g.rules.productions.map fun rule => ⟨rule.1, Production.nonterminals rule.2⟩)

/-- The layers of what the start leads to; the number of a layer is the distance from the start. -/
def distanceLayers (g : Grammar) : List (List Nonterminal) := layers g.mentionsOf g.rules.size g.start

/-- The nonterminals that the start leads to, itself included, declared or not. -/
def reachable (g : Grammar) : List Nonterminal := g.distanceLayers.flatten

/-- The grammar without its unproductive nonterminals and the productions that mention them. -/
def onlyProductive (g : Grammar) : Grammar :=
  let productive := g.productive
  { g with rules := (g.rules.filter fun nt => productive.contains nt).map fun _ a => a.filter (Production.isWithin productive) }

/-- The grammar without its unreachable nonterminals. -/
def onlyReachable (g : Grammar) : Grammar :=
  let reachable := g.reachable
  { g with rules := g.rules.filter fun nt => reachable.contains nt }

/-- The grammar without useless nonterminals and productions. Refused when it is not well-formed or its start generates no
word. -/
def trimmed (g : Grammar) : Except Malformed Grammar := do
  g.validate
  if g.productive.contains g.start then return g.onlyProductive.onlyReachable
  else throw (.startEliminated (g.nameOf g.start))

end Grammar

end TopDown
