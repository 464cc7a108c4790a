import TopDown.Leading

/-!
# Prediction

Which productions of a nonterminal are worth trying when the next character is known: those that can begin with it, and those
that can vanish, since anything may follow them. At the end of the input only the latter are. FIRST of a nonterminal holds the
characters that it can begin with; it is found character by character, as the least set of nonterminals that can begin with one.
-/

namespace TopDown

/-- A production with what it can begin with and whether it can vanish. -/
structure Choice where
  production : Production
  first : List Char
  nullable : Bool
deriving DecidableEq, Repr

/-- Tells whether a production is worth trying before the next character, `none` for the end of the input. -/
def Choice.isViable (next : Option Char) (choice : Choice) : Bool :=
  choice.nullable || next.any fun c => choice.first.contains c

/-- The prediction table of a grammar: its nullable nonterminals, and FIRST and the choices of every declared one. -/
structure Prediction where
  nullable : List Nonterminal
  first : Table (List Char)
  rows : Table (List Choice)

namespace Prediction

/-- The characters that a nonterminal can begin with, ascending. -/
def firstOf (t : Prediction) (nt : Nonterminal) : List Char := (Table.get? nt t.first).getD []

/-- Tells whether a nonterminal can vanish. -/
def isNullable (t : Prediction) (nt : Nonterminal) : Bool := t.nullable.contains nt

/-- The choices of a nonterminal in order. -/
def choicesOf (t : Prediction) (nt : Nonterminal) : List Choice := (Table.get? nt t.rows).getD []

/-- Tells whether the production of a nonterminal at a place exists and can vanish. -/
def productionNullable (t : Prediction) (nt : Nonterminal) (index : Nat) : Bool :=
  (t.choicesOf nt)[index]?.any Choice.nullable

/-- The places of the productions worth trying, ascending. -/
def candidates (t : Prediction) (nt : Nonterminal) (next : Option Char) : List Nat :=
  ((t.choicesOf nt).zipIdx.filter fun entry => entry.1.isViable next).map Prod.snd

/-- The productions worth trying, in order. -/
def expansions (t : Prediction) (nt : Nonterminal) (next : Option Char) : List Production :=
  ((t.choicesOf nt).filter (Choice.isViable next)).map Choice.production

end Prediction

namespace Grammar

/-- How a production lets a nonterminal begin with a character: at once, or because one of its leading nonterminals can. -/
def beginClauses (nullable : List Nonterminal) (c : Char) (rule : Nonterminal × Production) : List (Clause Nonterminal) :=
  (if Production.leadingTerminal? nullable rule.2 = some c then [⟨rule.1, []⟩] else []) ++
    (Production.leadingNonterminals nullable rule.2).map fun lead => ⟨rule.1, [lead]⟩

/-- The nonterminals that can begin with a character. -/
def beginningWith (g : Grammar) (nullable : List Nonterminal) (c : Char) : List Nonterminal :=
  saturate (g.rules.productions.flatMap (beginClauses nullable c))

/-- FIRST of every declared nonterminal, ascending. -/
def firstTable (g : Grammar) (nullable : List Nonterminal) : Table (List Char) :=
  let columns := g.terminals.map fun c => (c, g.beginningWith nullable c)
  g.declared.map fun nt => (nt, (columns.filter fun column => column.2.contains nt).map Prod.fst)

/-- The characters that a production can begin with, ascending, when FIRST of each nonterminal is known. -/
def firstOfProduction (nullable : List Nonterminal) (first : Table (List Char)) (p : Production) : List Char :=
  Ascending.ofList Char.toNat
    ((Production.leadingTerminal? nullable p).toList ++
      (Production.leadingNonterminals nullable p).flatMap fun nt => (Table.get? nt first).getD [])

/-- A production as a choice. -/
def choice (nullable : List Nonterminal) (first : Table (List Char)) (p : Production) : Choice where
  production := p
  first := firstOfProduction nullable first p
  nullable := Production.isNullable nullable p

/-- The prediction table. -/
def prediction (g : Grammar) : Prediction :=
  let nullable := g.nullable
  let first := g.firstTable nullable
  { nullable, first, rows := g.rules.entries.map fun entry => (entry.1, entry.2.toList.map (choice nullable first)) }

/-- The choices of a nonterminal are its productions, each with what is known about it. -/
theorem choicesOf_prediction (g : Grammar) (nt : Nonterminal) :
    g.prediction.choicesOf nt = (g.productionsOf nt).map (choice g.nullable (g.firstTable g.nullable)) := by
  have h := Table.get?_map (fun _ (a : Alternatives) => a.toList.map (choice g.nullable (g.firstTable g.nullable))) nt
    g.rules.entries
  simp only [Prediction.choicesOf, prediction, h, productionsOf, Rules.productionsOf, Rules.get?]
  cases Table.get? nt g.rules.entries <;> rfl

/-- Only productions of the nonterminal are ever tried. -/
theorem mem_productionsOf_of_mem_expansions {g : Grammar} {nt : Nonterminal} {next : Option Char} {p : Production}
    (h : p ∈ g.prediction.expansions nt next) : p ∈ g.productionsOf nt := by
  obtain ⟨c, hc, rfl⟩ := List.mem_map.1 h
  have hc := (List.mem_filter.1 hc).1
  rw [choicesOf_prediction] at hc
  obtain ⟨p, hp, rfl⟩ := List.mem_map.1 hc
  exact hp

end Grammar

end TopDown
