import TopDown.Distance
import TopDown.Grammar.Fresh

/-!
# Eliminating left recursion

The nonterminals are taken in order of distance. Each is first made to begin with no earlier one, by putting the productions of
the earlier one in its place. What is left is direct recursion: `A → A α | β` becomes `A → β | β A'` and `A' → α | α A'`, with
`A'` a fresh nonterminal, the tail of `A`. Grammars without empty productions lose all left recursion this way.
-/

namespace TopDown

/-- Tells whether a production begins with a nonterminal. -/
def Production.beginsWith (nt : Nonterminal) (p : Production) : Bool := p.head? == some (.nonterminal nt)

/-- A production with a leading nonterminal exchanged for each of its expansions in turn; any other stays as it is. -/
def Production.expandLeading (nt : Nonterminal) (expansions : List Production) (p : Production) : List Production :=
  if Production.beginsWith nt p then expansions.map fun expansion => expansion ++ p.tail else [p]

/-- Productions as they are, then each followed by a tail. -/
def withTail (tail : Nonterminal) (ps : List Production) : List Production :=
  ps ++ ps.map fun p => p ++ [.nonterminal tail]

/-- The state of an elimination: the grammar so far, and each nonterminal that got a tail, with its tail, in order. -/
structure Elimination where
  grammar : Grammar
  introduced : List (Nonterminal × Nonterminal)

namespace Grammar

/-- Productions with a leading `earlier` exchanged for the productions of `earlier`, each result once. -/
def substituteLeading (g : Grammar) (ps : List Production) (earlier : Nonterminal) : List Production :=
  if ps.any (Production.beginsWith earlier) then
    distinctProductions (ps.flatMap (Production.expandLeading earlier (g.productionsOf earlier)))
  else ps

/-- Makes a nonterminal begin with none of `earlier`, taken in turn. -/
def substituted (g : Grammar) (earlier : List Nonterminal) (nt : Nonterminal) : Grammar :=
  g.setProductions nt (earlier.foldl g.substituteLeading (g.productionsOf nt))

/-- The productions of a nonterminal that do not begin with it. -/
def nonrecursiveOf (g : Grammar) (nt : Nonterminal) : List Production :=
  (g.productionsOf nt).filter fun p => !Production.beginsWith nt p

/-- What follows a nonterminal in those of its productions that begin with it. A production that is only the nonterminal
adds nothing and is left out. -/
def recursiveTailsOf (g : Grammar) (nt : Nonterminal) : List Production :=
  ((g.productionsOf nt).filter (Production.beginsWith nt)).map List.tail |>.filter fun p => !p.isEmpty

end Grammar

namespace Elimination

/-- Removes direct recursion from a nonterminal. -/
def removeDirect (e : Elimination) (nt : Nonterminal) : Elimination :=
  let g := e.grammar
  let others := g.nonrecursiveOf nt
  let tails := g.recursiveTailsOf nt
  if tails.isEmpty then { e with grammar := g.setProductions nt others }
  else
    let tail := g.freshNonterminal
    { grammar := (g.addFresh nt (withTail tail tails)).setProductions nt (withTail tail others)
      introduced := e.introduced ++ [(nt, tail)] }

/-- Takes one nonterminal, when `earlier` have been taken. -/
def take (e : Elimination) (earlier : List Nonterminal) (nt : Nonterminal) : Elimination :=
  ({ e with grammar := e.grammar.substituted earlier nt } : Elimination).removeDirect nt

/-- Takes the nonterminals `nts` in turn, when `earlier` have been taken. -/
def run (e : Elimination) : (earlier nts : List Nonterminal) → Elimination
  | _, [] => e
  | earlier, nt :: nts => (e.take earlier nt).run (earlier ++ [nt]) nts

end Elimination

namespace Grammar

/-- Eliminates left recursion, in order of distance. Refused when there is nothing to order or the grammar is not
well-formed. -/
def eliminateLeftRecursion (g : Grammar) : Except Malformed Elimination := do
  let order ← g.orderByDistance
  g.validate
  return (Elimination.mk g []).run [] order

/-- The grammar after the elimination of left recursion. -/
def withoutLeftRecursion (g : Grammar) : Except Malformed Grammar := Elimination.grammar <$> g.eliminateLeftRecursion

end Grammar

end TopDown
