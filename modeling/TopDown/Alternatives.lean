import TopDown.Fingerprint

/-!
# Alternatives

The productions of one nonterminal: an ordered set. Order is the order of first insertion, and it is kept by every operation,
because it decides the order in which a search tries them.
-/

namespace TopDown

/-- An ordered set of productions. -/
@[ext] structure Alternatives where
  toList : List Production
  nodup : toList.Nodup
deriving DecidableEq

namespace Alternatives

/-- No alternative at all: the nonterminal derives nothing. -/
def empty : Alternatives := ⟨[], List.Pairwise.nil⟩

/-- The productions of a list in order of first appearance. -/
def ofList (ps : List Production) : Alternatives where
  toList := distinctProductions ps
  nodup := distinctProductions_eq_distinct ps ▸ nodup_distinct ps

/-- Tells whether a production is one of the alternatives. -/
def contains (a : Alternatives) (p : Production) : Bool := a.toList.contains p

/-- The alternatives that pass a test, in order. -/
def filter (a : Alternatives) (keep : Production → Bool) : Alternatives := ⟨a.toList.filter keep, a.nodup.filter keep⟩

/-- Tells whether two sets have the same members, whatever their order. -/
def agrees (a b : Alternatives) : Bool := a.toList.all b.contains && b.toList.all a.contains

@[simp] theorem toList_empty : empty.toList = [] := rfl

@[simp] theorem toList_ofList (ps : List Production) : (ofList ps).toList = distinct ps :=
  distinctProductions_eq_distinct ps

@[simp] theorem toList_filter (a : Alternatives) (keep : Production → Bool) :
    (a.filter keep).toList = a.toList.filter keep := rfl

@[simp] theorem ofList_toList (a : Alternatives) : ofList a.toList = a :=
  Alternatives.ext (by rw [toList_ofList, distinct_eq_self a.nodup])

end Alternatives

end TopDown
