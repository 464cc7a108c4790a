import TopDown.Grammar.Fresh

/-!
# Left factoring

A grammar is factored when no nonterminal has two productions that begin with the same symbol. Productions that do are put
together: their longest common beginning is followed by a fresh nonterminal, which has the remainders as its productions and is
factored in turn. Each nonterminal is taken from the front of a queue and fresh ones join at its end.
-/

namespace TopDown

/-- The longest common beginning of two productions. -/
def Production.commonStem : Production → Production → Production
  | s :: p, t :: q => if s = t then s :: commonStem p q else []
  | _, _ => []

/-- What becomes of a nonterminal's productions. -/
inductive Part where
  /-- A production that shares its first symbol with no other, or is empty. -/
  | alone (production : Production)
  /-- Productions that share their beginning, and what is left of each after it. -/
  | shared (stem : Production) (remainders : List Production)
deriving DecidableEq, Repr

namespace Part

/-- The productions that begin with the same symbol as `p`. -/
def group (ps : List Production) (p : Production) : List Production := ps.filter fun q => q.head? = p.head?

/-- The part that stands where `p` stood. A group stands where its first member stood, so the others have no part. -/
def of? (ps : List Production) (p : Production) : Option Part :=
  if p.isEmpty then some (.alone p)
  else match group ps p with
    | first :: second :: rest =>
      if p = first then
        let stem := (second :: rest).foldl Production.commonStem first
        some (.shared stem ((first :: second :: rest).map (List.drop stem.length)))
      else none
    | _ => some (.alone p)

/-- The parts of a nonterminal's productions, in order. -/
def ofProductions (ps : List Production) : List Part := ps.filterMap (of? ps)

end Part

/-- The state of a factoring: the grammar so far, the nonterminals still to be taken, and how many were introduced. -/
structure Factoring where
  grammar : Grammar
  pending : List Nonterminal
  introduced : Nat

namespace Factoring

/-- Introduces a fresh nonterminal that serves `nt` and has these productions; it joins the queue. -/
def introduce (s : Factoring) (nt : Nonterminal) (ps : List Production) : Factoring where
  grammar := s.grammar.addFresh nt ps
  pending := s.pending ++ [s.grammar.freshNonterminal]
  introduced := s.introduced + 1

/-- Introduces a nonterminal for each shared part in turn, and gives the productions that the parts become. -/
def place (nt : Nonterminal) : List Part → Factoring → Factoring × List Production
  | [], s => (s, [])
  | .alone p :: parts, s =>
    let (s, ps) := place nt parts s
    (s, p :: ps)
  | .shared stem remainders :: parts, s =>
    let fresh := s.grammar.freshNonterminal
    let (s, ps) := place nt parts (s.introduce nt remainders)
    (s, (stem ++ [.nonterminal fresh]) :: ps)

/-- Factors one nonterminal. -/
def take (s : Factoring) (nt : Nonterminal) : Factoring :=
  let (s, ps) := place nt (Part.ofProductions (s.grammar.productionsOf nt)) s
  { s with grammar := s.grammar.setProductions nt ps }

/-- Takes nonterminals from the queue until it is empty, `fuel` at most. -/
def run : (fuel : Nat) → Factoring → Factoring
  | 0, s => s
  | fuel + 1, s =>
    match s.pending with
    | [] => s
    | nt :: rest => run fuel (({ s with pending := rest } : Factoring).take nt)

end Factoring

namespace Grammar

/-- The nonterminals and symbols of a grammar, counted. A fresh nonterminal stands for two symbols or more that were shared,
so no factoring takes more nonterminals than this. -/
def extent (g : Grammar) : Nat := g.rules.size + (g.rules.productions.flatMap Prod.snd).length

/-- Factors every nonterminal. -/
def factoring (g : Grammar) : Factoring := Factoring.run g.extent ⟨g, g.declared, 0⟩

/-- The factored grammar. -/
def factored (g : Grammar) : Grammar := g.factoring.grammar

/-- Tells whether no nonterminal has two productions that begin with the same symbol. -/
def isFactored (g : Grammar) : Bool :=
  g.rules.entries.all fun entry =>
    entry.2.toList.all fun p => p.isEmpty || (Part.group entry.2.toList p).length == 1

end Grammar

end TopDown
