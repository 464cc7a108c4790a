import TopDown.Trimming

/-!
# Order by distance

The nonterminals of a grammar by their distance from the start, the number of mentions that it takes to get there; of equal ones
the smaller comes first. Those that the start does not lead to come last.
-/

namespace TopDown.Grammar

/-- The declared nonterminals by distance from the start, then by number. -/
def distanceOrder (g : Grammar) : List Nonterminal :=
  let layers := g.distanceLayers
  let reached := layers.flatten
  (layers ++ [g.declared.filter fun nt => !reached.contains nt]).flatMap fun layer =>
    Ascending.ofList id (layer.filter g.rules.contains)

/-- The declared nonterminals in order of distance. A grammar that declares none is refused. -/
def orderByDistance (g : Grammar) : Except Malformed (List Nonterminal) :=
  if g.declared.isEmpty then .error .nothingToOrder else .ok g.distanceOrder

end TopDown.Grammar
