import TopDown.Grammar.Basic
import TopDown.Layers
import TopDown.QueueSearch

/-!
# Unit productions

A unit production is one nonterminal and nothing else. A nonterminal that reaches another by unit productions alone can have the
other's productions as its own, and then no unit production is needed; cycles of them need no care, because what is reached is
computed first.
-/

namespace TopDown

/-- The nonterminal that a unit production is. -/
def Production.unitTarget? : Production → Option Nonterminal
  | [.nonterminal nt] => some nt
  | _ => none

namespace Grammar

/-- Where the unit productions of each declared nonterminal lead, in order. -/
def unitTargets (g : Grammar) : Index (List Nonterminal) :=
  .ofTable (g.rules.entries.map fun entry => (entry.1, entry.2.toList.filterMap Production.unitTarget?))

/-- The productions of each declared nonterminal that are not unit productions, in order. -/
def properProductions (g : Grammar) : Index (List Production) :=
  .ofTable (g.rules.entries.map fun entry => (entry.1, entry.2.toList.filter fun p => (Production.unitTarget? p).isNone))

/-- The grammar without unit productions: every nonterminal has the other productions of all that it reached by them, those of
the nearest first. -/
def withoutUnits (g : Grammar) : Grammar :=
  let targets := g.unitTargets
  let proper := g.properProductions
  { g with rules := g.rules.map fun nt _ => .ofList ((closure targets.listOf g.rules.size nt).flatMap proper.listOf) }

/-- The search along unit productions from a nonterminal, with a queue. Only the nonterminal itself and what is mentioned is ever
taken, each once. -/
def chainSearch (g : Grammar) (nt : Nonterminal) : QueueSearch :=
  QueueSearch.run g.unitTargets.listOf (g.mentions.length + 1) (.start nt)

/-- The grammar without unit productions, made nonterminal by nonterminal from what the search has met, in the order in which it
was met. -/
def withoutUnitsByQueue (g : Grammar) : Grammar :=
  { g with rules := g.rules.map fun nt _ =>
      .ofList (((g.chainSearch nt).distances.map Prod.fst).flatMap g.properProductions.listOf) }

/-- Where the unit productions of a nonterminal lead. -/
theorem listOf_unitTargets (g : Grammar) (nt : Nonterminal) :
    g.unitTargets.listOf nt = (g.productionsOf nt).filterMap Production.unitTarget? := by
  rw [Index.listOf, unitTargets, Index.get?_ofTable,
    Table.get?_map fun _ (a : Alternatives) => a.toList.filterMap Production.unitTarget?]
  simp only [productionsOf, Rules.productionsOf, Rules.get?]
  cases Table.get? nt g.rules.entries <;> rfl

/-- The productions of a nonterminal that are not unit productions. -/
theorem listOf_properProductions (g : Grammar) (nt : Nonterminal) :
    g.properProductions.listOf nt = (g.productionsOf nt).filter fun p => (Production.unitTarget? p).isNone := by
  rw [Index.listOf, properProductions, Index.get?_ofTable,
    Table.get?_map fun _ (a : Alternatives) => a.toList.filter fun p => (Production.unitTarget? p).isNone]
  simp only [productionsOf, Rules.productionsOf, Rules.get?]
  cases Table.get? nt g.rules.entries <;> rfl

end Grammar

end TopDown
