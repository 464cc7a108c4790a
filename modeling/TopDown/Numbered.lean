import TopDown.Normalization

/-!
# Numbers of 32 bits

The transformations, as far as numbers last. A fresh nonterminal gets its number from a source that counts in 32 bits. When the
source has started over, what it gives is not behind the largest number in use, and the transformation breaks off there: it has
no result then, whatever it has done before. A source that has to step behind each number that it gives breaks off one number
earlier; what it makes until then is what is made here.
-/

namespace TopDown

/-- Why a transformation has no result. -/
inductive Stop where
  /-- The grammar cannot be worked with. -/
  | malformed (cause : Malformed)
  /-- No number was left for a fresh nonterminal. -/
  | outOfNumbers
deriving DecidableEq, Repr

/-- The outcome of a transformation that needs no numbers. -/
def Stop.lift {α : Type} (outcome : Except Malformed α) : Except Stop α := outcome.mapError .malformed

namespace Grammar

/-- The number that the source gives to the next fresh nonterminal, unless the source has started over. -/
def nextNumber (g : Grammar) : Except Stop Nonterminal :=
  let number := (NumberSource.after g.maxNonterminal).take.1
  if g.maxNonterminal < number then .ok number else .error .outOfNumbers

/-- The grammar with a fresh nonterminal that serves `origin`, declared last and without productions, and its number. -/
def addNumbered (g : Grammar) (origin : Nonterminal) : Except Stop (Grammar × Nonterminal) := do
  let number ← g.nextNumber
  return ((g.setName number (g.freshName origin)).setProductions number [], number)

end Grammar

/-! ## Left factoring -/

namespace Factoring

/-- Introduces a nonterminal for each shared part in turn, and gives the productions that the parts become. -/
def placeNumbered (nt : Nonterminal) : List Part → Factoring → Except Stop (Factoring × List Production)
  | [], s => .ok (s, [])
  | .alone p :: parts, s => do
    let (s, ps) ← placeNumbered nt parts s
    return (s, p :: ps)
  | .shared stem remainders :: parts, s => do
    let (grammar, fresh) ← s.grammar.addNumbered nt
    let (s, ps) ← placeNumbered nt parts ⟨grammar.setProductions fresh remainders, s.pending ++ [fresh], s.introduced + 1⟩
    return (s, (stem ++ [.nonterminal fresh]) :: ps)

/-- Factors one nonterminal. -/
def takeNumbered (s : Factoring) (nt : Nonterminal) : Except Stop Factoring := do
  let (s, ps) ← placeNumbered nt (Part.ofProductions (s.grammar.productionsOf nt)) s
  return { s with grammar := s.grammar.setProductions nt ps }

/-- Takes nonterminals from the queue until it is empty, `fuel` at most. -/
def runNumbered : (fuel : Nat) → Factoring → Except Stop Factoring
  | 0, s => .ok s
  | fuel + 1, s =>
    match s.pending with
    | [] => .ok s
    | nt :: rest => do runNumbered fuel (← takeNumbered { s with pending := rest } nt)

end Factoring

namespace Grammar

/-- Factors every nonterminal. -/
def factoringNumbered (g : Grammar) : Except Stop Factoring := Factoring.runNumbered g.extent ⟨g, g.declared, 0⟩

/-- The factored grammar. -/
def factoredNumbered (g : Grammar) : Except Stop Grammar := Factoring.grammar <$> g.factoringNumbered

end Grammar

/-! ## Left recursion -/

namespace Elimination

/-- Removes direct recursion from a nonterminal. -/
def removeDirectNumbered (e : Elimination) (nt : Nonterminal) : Except Stop Elimination := do
  let others := e.grammar.nonrecursiveOf nt
  let tails := e.grammar.recursiveTailsOf nt
  if tails.isEmpty then return { e with grammar := e.grammar.setProductions nt others }
  else
    let (grammar, tail) ← e.grammar.addNumbered nt
    return { grammar := (grammar.setProductions tail (withTail tail tails)).setProductions nt (withTail tail others)
             introduced := e.introduced ++ [(nt, tail)] }

/-- Takes the nonterminals `nts` in turn, when `earlier` have been taken. -/
def runNumbered (e : Elimination) : (earlier nts : List Nonterminal) → Except Stop Elimination
  | _, [] => .ok e
  | earlier, nt :: nts => do
    let e ← ({ e with grammar := e.grammar.substituted earlier nt } : Elimination).removeDirectNumbered nt
    e.runNumbered (earlier ++ [nt]) nts

end Elimination

namespace Grammar

/-- Eliminates left recursion, in order of distance. -/
def eliminateLeftRecursionNumbered (g : Grammar) : Except Stop Elimination := do
  let order ← Stop.lift g.orderByDistance
  Stop.lift g.validate
  (Elimination.mk g []).runNumbered [] order

/-- The grammar after the elimination of left recursion. -/
def withoutLeftRecursionNumbered (g : Grammar) : Except Stop Grammar :=
  Elimination.grammar <$> g.eliminateLeftRecursionNumbered

/-! ## Normalization -/

/-- The grammar with the empty word added to its language, through a fresh start. -/
def withEmptyWordNumbered (g : Grammar) : Except Stop Grammar := do
  let (h, start) ← g.addNumbered g.start
  return { h.setProductions start [[.nonterminal g.start], []] with start }

/-- A grammar for the same language that is not left-recursive. -/
def descendingNumbered (g : Grammar) : Except Stop Grammar :=
  match g.reduced.trimmed with
  | .ok clean => do
    let result ← clean.withoutLeftRecursionNumbered
    if g.startNullable then result.withEmptyWordNumbered else return result
  | .error cause =>
    if cause.kind = .startEliminated ∧ g.startNullable then .ok g.onlyEmptyWord else .error (.malformed cause)

/-- The grammar at the end of a route, before the last trimming. -/
def followNumbered (g : Grammar) : Route → Except Stop Grammar
  | .leftRecursionRemoval => g.descendingNumbered
  | .leftFactoring => g.factoredNumbered

/-- A grammar for the same language, free of left recursion and of useless symbols. -/
def normalizeNumbered (g : Grammar) : Except Stop Normalized := do
  Stop.lift g.validate
  let followed ← g.followNumbered g.route
  return ⟨← Stop.lift followed.trimmed, g.route⟩

end Grammar

end TopDown
