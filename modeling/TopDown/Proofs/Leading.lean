import Mathlib.Logic.Relation
import TopDown.Leading
import TopDown.Proofs.Nullable

/-!
# Leading symbols, judged

What a derivation can begin with. A symbol opens a list of symbols when all that stands before it can vanish, and it begins a
nonterminal when it opens one of its productions. A step exchanges one nonterminal for a production, so what opens the list after
the step opened it before or begins the nonterminal. Followed back through a whole derivation, its first symbol is found at the
end of a chain: it begins a symbol that begins a symbol, and so on, and the last one opens the list that the derivation starts
from. Every such chain can be made into a derivation.

Main statements: `exists_derives_cons_iff` and `exists_derivesPlus_cons_iff`.
-/

namespace TopDown.Production

variable {nullable nullable' : List Nonterminal}

/-- What leads depends on what is nullable, in whatever order that was found. -/
theorem leadingNonterminals_congr (h : ∀ nt, nt ∈ nullable ↔ nt ∈ nullable') (p : Production) :
    leadingNonterminals nullable p = leadingNonterminals nullable' p := by
  induction p with
  | nil => rfl
  | cons s p ih =>
    cases s with
    | terminal c => rfl
    | nonterminal nt => simp only [leadingNonterminals, List.contains_eq_mem, h nt, ih]

/-- So does the character that leads. -/
theorem leadingTerminal?_congr (h : ∀ nt, nt ∈ nullable ↔ nt ∈ nullable') (p : Production) :
    leadingTerminal? nullable p = leadingTerminal? nullable' p := by
  induction p with
  | nil => rfl
  | cons s p ih =>
    cases s with
    | terminal c => rfl
    | nonterminal nt => simp only [leadingTerminal?, List.contains_eq_mem, h nt, ih]

end TopDown.Production

namespace TopDown.Grammar

open Production (reading)

/-- A symbol opens a list of symbols when those before it derive the empty word. -/
def Opens (g : Grammar) (s : Symbol) (form : List Symbol) : Prop :=
  ∃ before after, form = before ++ s :: after ∧ [] ∈ reading g.words before

/-- A symbol begins a nonterminal when it opens one of its productions. -/
inductive Begins (g : Grammar) (s : Symbol) : Symbol → Prop where
  | production {nt : Nonterminal} {p : Production} (hp : p ∈ g.productionsOf nt) (h : g.Opens s p) :
      Begins g s (.nonterminal nt)

variable {g : Grammar}

/-! ## What opens a list -/

theorem not_opens_nil {s : Symbol} : ¬ g.Opens s [] := by
  rintro ⟨before, after, heq, -⟩
  simp at heq

/-- A list is opened by its first symbol and, if that can vanish, by what opens the rest. -/
theorem opens_cons_iff {s t : Symbol} {form : List Symbol} :
    g.Opens s (t :: form) ↔ s = t ∨ (∃ nt, t = .nonterminal nt ∧ [] ∈ g.words nt) ∧ g.Opens s form := by
  constructor
  · rintro ⟨before, after, heq, hb⟩
    cases before with
    | nil =>
      cases heq
      exact Or.inl rfl
    | cons u before =>
      cases heq
      obtain ⟨ht, hb⟩ := Production.nil_mem_reading_cons.1 hb
      exact Or.inr ⟨ht, before, after, rfl, hb⟩
  · rintro (rfl | ⟨ht, before, after, rfl, hb⟩)
    · exact ⟨[], form, rfl, Production.mem_reading_nil.2 rfl⟩
    · exact ⟨t :: before, after, rfl, Production.nil_mem_reading_cons.2 ⟨ht, hb⟩⟩

theorem opens_singleton_iff {s t : Symbol} : g.Opens s [t] ↔ s = t := by
  simp [opens_cons_iff, not_opens_nil]

/-- Two lists one after the other are opened by what opens the first and, if that can vanish, by what opens the second. -/
theorem opens_append_iff {s : Symbol} {a b : List Symbol} :
    g.Opens s (a ++ b) ↔ g.Opens s a ∨ [] ∈ reading g.words a ∧ g.Opens s b := by
  induction a with
  | nil => simp [not_opens_nil]
  | cons t a ih =>
    rw [List.cons_append, opens_cons_iff, ih, opens_cons_iff, Production.nil_mem_reading_cons, and_or_left, or_assoc, and_assoc]

/-- The nonterminals that open a production are its leading ones. -/
theorem opens_nonterminal_iff {lead : Nonterminal} {p : Production} :
    g.Opens (.nonterminal lead) p ↔ lead ∈ Production.leadingNonterminals g.nullable p := by
  induction p with
  | nil => simp [not_opens_nil, Production.leadingNonterminals]
  | cons t p ih =>
    rw [opens_cons_iff, ih]
    cases t with
    | terminal c => simp [Production.leadingNonterminals]
    | nonterminal nt =>
      by_cases hn : nt ∈ g.nullable
      · simp [Production.leadingNonterminals, hn, mem_nullable_iff.1 hn]
      · simp [Production.leadingNonterminals, hn, mt mem_nullable_iff.2 hn]

/-- The terminal that opens a production is its leading one. -/
theorem opens_terminal_iff {c : Char} {p : Production} :
    g.Opens (.terminal c) p ↔ Production.leadingTerminal? g.nullable p = some c := by
  induction p with
  | nil => simp [not_opens_nil, Production.leadingTerminal?]
  | cons t p ih =>
    rw [opens_cons_iff, ih]
    cases t with
    | terminal d => simp [Production.leadingTerminal?, eq_comm]
    | nonterminal nt =>
      by_cases hn : nt ∈ g.nullable
      · simp [Production.leadingTerminal?, hn, mem_nullable_iff.1 hn]
      · simp [Production.leadingTerminal?, hn, mt mem_nullable_iff.2 hn]

/-! ## From a chain to a derivation -/

/-- A list derives one that begins with a symbol that opens it. -/
theorem Opens.exists_derives {s : Symbol} {form : List Symbol} (h : g.Opens s form) :
    ∃ rest, g.Derives form (s :: rest) := by
  obtain ⟨before, after, rfl, hb⟩ := h
  exact ⟨after, (derives_of_mem_reading hb).append (Derives.refl (s :: after))⟩

/-- What begins a nonterminal is the first symbol of something that it derives. -/
theorem Begins.exists_derives {s t : Symbol} (h : g.Begins s t) : ∃ rest, g.Derives [t] (s :: rest) := by
  cases h with
  | @production nt p hp ho =>
    obtain ⟨rest, hrest⟩ := ho.exists_derives
    exact ⟨rest, Derives.head (step_singleton_iff.2 hp) hrest⟩

/-- So is what begins it in any number of turns. -/
theorem exists_derives_of_chain {s t : Symbol} (h : Relation.ReflTransGen g.Begins s t) :
    ∃ rest, g.Derives [t] (s :: rest) := by
  induction h with
  | refl => exact ⟨[], Derives.refl _⟩
  | tail _ hbegins ih =>
    obtain ⟨inner, hinner⟩ := ih
    obtain ⟨outer, houter⟩ := hbegins.exists_derives
    exact ⟨inner ++ outer, houter.trans (hinner.append (Derives.refl outer))⟩

/-! ## From a derivation to a chain -/

/-- What opens a list after a step opened it before, or begins what did. -/
theorem Step.opens {a b : List Symbol} (h : g.Step a b) {s : Symbol} (hs : g.Opens s b) :
    g.Opens s a ∨ ∃ t, g.Opens t a ∧ g.Begins s t := by
  cases h with
  | @expand before after nt p hp =>
    rw [List.append_assoc, opens_append_iff, opens_append_iff] at hs
    rcases hs with hs | ⟨hbefore, hs | ⟨hvanish, hs⟩⟩
    · exact Or.inl (opens_append_iff.2 (Or.inl hs))
    · have hnt : g.Opens (.nonterminal nt) (before ++ .nonterminal nt :: after) := ⟨before, after, rfl, hbefore⟩
      exact Or.inr ⟨_, hnt, Begins.production hp hs⟩
    · have hnt : [] ∈ g.words nt := words_closed g nt p hp [] hvanish
      exact Or.inl (opens_append_iff.2 (Or.inr ⟨hbefore, opens_cons_iff.2 (Or.inr ⟨⟨nt, rfl, hnt⟩, hs⟩)⟩))

/-- What opens a list at the end of a derivation begins, in any number of turns, a symbol that opened it at the beginning. -/
theorem Derives.exists_chain {a b : List Symbol} (h : g.Derives a b) {s : Symbol} (hs : g.Opens s b) :
    ∃ t, g.Opens t a ∧ Relation.ReflTransGen g.Begins s t := by
  induction h generalizing s with
  | refl => exact ⟨s, hs, Relation.ReflTransGen.refl⟩
  | tail _ hstep ih =>
    rcases hstep.opens hs with hs | ⟨t, ht, hbegins⟩
    · exact ih hs
    · obtain ⟨u, hu, hchain⟩ := ih ht
      exact ⟨u, hu, Relation.ReflTransGen.head hbegins hchain⟩

/-- A list derives something with a given first symbol when the symbol begins, in any number of turns, one that opens the list. -/
theorem exists_derives_cons_iff {form : List Symbol} {s : Symbol} :
    (∃ rest, g.Derives form (s :: rest)) ↔ ∃ t, g.Opens t form ∧ Relation.ReflTransGen g.Begins s t := by
  constructor
  · rintro ⟨rest, h⟩
    exact h.exists_chain (opens_cons_iff.2 (Or.inl rfl))
  · rintro ⟨t, ht, hchain⟩
    obtain ⟨outer, houter⟩ := ht.exists_derives
    obtain ⟨inner, hinner⟩ := exists_derives_of_chain hchain
    exact ⟨inner ++ outer, houter.trans (hinner.append (Derives.refl outer))⟩

/-- A nonterminal derives, in one step or more, something with a given first symbol when the symbol begins it, in one turn or
more. -/
theorem exists_derivesPlus_cons_iff {nt : Nonterminal} {s : Symbol} :
    (∃ rest, g.DerivesPlus [.nonterminal nt] (s :: rest)) ↔ Relation.TransGen g.Begins s (.nonterminal nt) := by
  rw [Relation.TransGen.tail'_iff]
  constructor
  · rintro ⟨rest, p, hp, h⟩
    obtain ⟨t, ht, hchain⟩ := exists_derives_cons_iff.1 ⟨rest, h⟩
    exact ⟨t, hchain, Begins.production (step_singleton_iff.1 hp) ht⟩
  · rintro ⟨t, hchain, hbegins⟩
    cases hbegins with
    | @production _ p hp ht =>
      obtain ⟨rest, h⟩ := exists_derives_cons_iff.2 ⟨t, ht, hchain⟩
      exact ⟨rest, p, step_singleton_iff.2 hp, h⟩

end TopDown.Grammar
