import TopDown.Grammar.Basic
import TopDown.Saturation

/-!
# Nullable nonterminals and empty productions

A nonterminal is nullable when it generates the empty word. Once every nullable mention has been made optional, the empty
productions themselves can go: each nonterminal then generates what it did, less the empty word.
-/

namespace TopDown

/-- Tells whether a symbol is a nonterminal of the list: one that can be left out when the list holds the nullable ones. -/
def Symbol.isOmittable (nullable : List Nonterminal) : Symbol → Bool
  | .nonterminal nt => nullable.contains nt
  | .terminal _ => false

/-- Tells whether every symbol of a production can be left out. -/
def Production.isNullable (nullable : List Nonterminal) (p : Production) : Bool := p.all (Symbol.isOmittable nullable)

/-- The nonterminals of a production that has no other symbols. All of them have to vanish for the production to vanish. -/
def Production.onlyNonterminals? : Production → Option (List Nonterminal)
  | [] => some []
  | .nonterminal nt :: p => (onlyNonterminals? p).map (nt :: ·)
  | .terminal _ :: _ => none

/-- Every way to keep or leave out each omittable symbol, each result once. The production itself comes first, the shortest
variant last. -/
def Production.variants (nullable : List Nonterminal) : Production → List Production
  | [] => [[]]
  | s :: p =>
    distinctProductions ((variants nullable p).flatMap fun variant =>
      if s.isOmittable nullable then [s :: variant, variant] else [s :: variant])

namespace Grammar

/-- The nullable nonterminals: one is nullable when all symbols of one of its productions are. -/
def nullable (g : Grammar) : List Nonterminal :=
  saturate (g.rules.productions.filterMap fun rule => (Production.onlyNonterminals? rule.2).map (Clause.mk rule.1))

/-- The productions of a nonterminal once nullable mentions are optional, less the empty one. -/
def expandedProductions (nullable : List Nonterminal) (ps : List Production) : List Production :=
  (ps.flatMap (Production.variants nullable)).filter fun p => !p.isEmpty

/-- The grammar without empty productions: every nonterminal generates what it did, less the empty word. -/
def withoutEmpty (g : Grammar) : Grammar :=
  let nullable := g.nullable
  { g with rules := g.rules.map fun _ a => .ofList (expandedProductions nullable a.toList) }

/-- A production whose symbols can all be left out has only nonterminals, and these are in the list. -/
theorem exists_of_isNullable {nullable : List Nonterminal} {p : Production} (h : Production.isNullable nullable p = true) :
    ∃ nts, Production.onlyNonterminals? p = some nts ∧ ∀ nt ∈ nts, nt ∈ nullable := by
  induction p with
  | nil => exact ⟨[], rfl, fun _ h => nomatch h⟩
  | cons s p ih =>
    obtain ⟨hs, hp⟩ := Bool.and_eq_true_iff.1 h
    obtain ⟨nts, hnts, hall⟩ := ih hp
    cases s with
    | terminal c => cases hs
    | nonterminal nt =>
      refine ⟨nt :: nts, by simp [Production.onlyNonterminals?, hnts], fun m hm => ?_⟩
      rcases List.mem_cons.1 hm with rfl | hm
      · exact List.contains_iff_mem.1 hs
      · exact hall m hm

/-- A nonterminal is nullable as soon as one of its productions has only nullable symbols. -/
theorem mem_nullable_of_isNullable {g : Grammar} {nt : Nonterminal} {p : Production} (hp : p ∈ g.productionsOf nt)
    (h : Production.isNullable g.nullable p = true) : nt ∈ g.nullable := by
  obtain ⟨nts, hnts, hall⟩ := exists_of_isNullable h
  exact mem_saturate (c := ⟨nt, nts⟩)
    (List.mem_filterMap.2 ⟨(nt, p), Rules.mem_productions.2 hp, by simp [hnts]⟩) hall

end Grammar

end TopDown
