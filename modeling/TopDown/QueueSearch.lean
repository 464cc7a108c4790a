import TopDown.Distance
import TopDown.Table

/-!
# Search with a queue

The distances from a nonterminal, found by taking one nonterminal after the other from the front of a queue. What is met for the
first time where a nonterminal leads is one further away than this, and it joins the queue at its end. When nothing is left in the
queue, the nonterminals of a grammar can be sorted by what is known.
-/

namespace TopDown

/-- The distances of what has been met, in the order in which it was met, and what is still to be taken. -/
structure QueueSearch where
  distances : Table Nat
  queue : List Nonterminal
deriving DecidableEq, Repr

namespace QueueSearch

/-- The start has been met, and nothing was taken. -/
def start (nt : Nonterminal) : QueueSearch := ⟨[(nt, 0)], [nt]⟩

/-- Meets a nonterminal at a distance. It counts the first time only. -/
def meet (distance : Nat) (s : QueueSearch) (nt : Nonterminal) : QueueSearch :=
  match Table.get? nt s.distances with
  | some _ => s
  | none => ⟨s.distances ++ [(nt, distance)], s.queue ++ [nt]⟩

/-- Takes a nonterminal, which meets everything that it leads to. -/
def take (next : Nonterminal → List Nonterminal) (s : QueueSearch) (nt : Nonterminal) : QueueSearch :=
  (next nt).foldl (meet ((Table.get? nt s.distances).getD 0 + 1)) s

/-- Takes nonterminals from the queue until it is empty, `fuel` at most. -/
def run (next : Nonterminal → List Nonterminal) : (fuel : Nat) → QueueSearch → QueueSearch
  | 0, s => s
  | fuel + 1, s =>
    match s.queue with
    | [] => s
    | nt :: rest => run next fuel (({ s with queue := rest } : QueueSearch).take next nt)

/-- Tells whether one nonterminal may stand before another: it is nearer, or as near and not larger. What was not met is further
away than everything that was. -/
def mayPrecede (distances : Table Nat) (a b : Nonterminal) : Bool :=
  match Table.get? a distances, Table.get? b distances with
  | some d, some e => d < e || d == e && a ≤ b
  | some _, none => true
  | none, some _ => false
  | none, none => a ≤ b

end QueueSearch

namespace Grammar

/-- The search from the start along mentions. Only the start and what is mentioned is ever taken, each once. -/
def queueSearch (g : Grammar) : QueueSearch := QueueSearch.run g.mentionsOf (g.mentions.length + 1) (.start g.start)

/-- The declared nonterminals, sorted by what the search found. A grammar that declares none is refused. -/
def orderByQueue (g : Grammar) : Except Malformed (List Nonterminal) :=
  if g.declared.isEmpty then .error .nothingToOrder
  else .ok (g.declared.mergeSort (QueueSearch.mayPrecede g.queueSearch.distances))

end Grammar

end TopDown
