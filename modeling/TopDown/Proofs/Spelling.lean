import Mathlib.Data.List.Nodup
import TopDown.Grammar.Printer
import TopDown.Proofs.Lines
import TopDown.Proofs.Loading

/-!
# Productions by name

Numbers say nothing about a grammar. Here its productions are written with names for numbers, which makes them the alternatives
of definitions: the text form of a grammar is what is written for its definitions, and the grammar of some definitions has
their alternatives, merged by head. Two grammars are the same by name when nothing but the numbers sets them apart.

Main statements: `render_eq` and `spelled_ofDefinitions`.
-/

namespace TopDown

/-- Repetitions are dropped alike before and after a function that can be undone. -/
theorem distinct_map {α β : Type} [DecidableEq α] [DecidableEq β] {f : α → β} {undo : β → α} {l : List α}
    (h : ∀ a ∈ l, undo (f a) = a) : distinct (l.map f) = (distinct l).map f := by
  induction l with
  | nil => rfl
  | cons a l ih =>
    obtain ⟨ha, hl⟩ := List.forall_mem_cons.1 h
    have hne : ∀ b ∈ distinct l, decide (f b ≠ f a) = decide (b ≠ a) := by
      intro b hb
      rw [decide_eq_decide, not_iff_not]
      refine ⟨fun he => ?_, fun he => he ▸ rfl⟩
      rw [← hl b (mem_distinct.1 hb), he, ha]
    rw [List.map_cons, distinct, ih hl, List.filter_map, distinct, List.map_cons, ← List.filter_congr hne]
    rfl

namespace Grammar

/-- A symbol with a name for a number. -/
def spell (g : Grammar) : Symbol → Atom
  | .nonterminal nt => .reference (g.nameOf nt)
  | .terminal c => .terminal c

/-- The productions of a nonterminal in order, with names for numbers. -/
def spelled (g : Grammar) (nt : Nonterminal) : List (List Atom) := (g.productionsOf nt).map (List.map g.spell)

/-- No two declared nonterminals are shown alike. -/
def NamesApart (g : Grammar) : Prop := ∀ nt ∈ g.declared, ∀ m ∈ g.declared, g.nameOf nt = g.nameOf m → nt = m

/-- Two grammars are the same up to renumbering: names tell their nonterminals apart, the same names are declared, the start has
the same name, and to each name belong the same productions in the same order, with names for numbers. -/
structure SameByName (g h : Grammar) : Prop where
  apart : g.NamesApart ∧ h.NamesApart
  start : g.nameOf g.start = h.nameOf h.start
  declared : ∀ name, (∃ nt ∈ g.declared, g.nameOf nt = name) ↔ ∃ nt ∈ h.declared, h.nameOf nt = name
  productions : ∀ nt ∈ g.declared, ∀ m ∈ h.declared, g.nameOf nt = h.nameOf m → g.spelled nt = h.spelled m

/-- A nonterminal that has a name is shown by it. -/
theorem nameOf_eq {g : Grammar} {nt : Nonterminal} {name : String} (h : g.names.get? nt = some name) : g.nameOf nt = name := by
  rw [nameOf, h, Option.getD_some]

theorem spell_eq_terminal_iff {g : Grammar} {s : Symbol} {c : Char} : g.spell s = .terminal c ↔ s = .terminal c := by
  cases s <;> simp [spell]

/-- A reference is to the name of the nonterminal that is spelled. -/
theorem spell_eq_reference_iff {g : Grammar} {s : Symbol} {name : String} :
    g.spell s = .reference name ↔ ∃ nt, s = .nonterminal nt ∧ g.nameOf nt = name := by
  cases s <;> simp [spell]

/-- A name is referred to where its nonterminal is mentioned. -/
theorem reference_mem_map_spell {g : Grammar} {p : Production} {name : String} :
    .reference name ∈ p.map g.spell ↔ ∃ nt, .nonterminal nt ∈ p ∧ g.nameOf nt = name := by
  rw [List.mem_map]
  simp only [spell_eq_reference_iff]
  constructor
  · rintro ⟨_, hs, nt, rfl, hname⟩
    exact ⟨nt, hs, hname⟩
  · rintro ⟨nt, hs, hname⟩
    exact ⟨_, hs, nt, rfl, hname⟩

/-- Where names tell nonterminals apart, so do they tell productions apart. -/
theorem map_spell_inj {g : Grammar} (hg : g.NamesApart) {p q : Production} (hp : ∀ m, .nonterminal m ∈ p → m ∈ g.declared)
    (hq : ∀ m, .nonterminal m ∈ q → m ∈ g.declared) (h : p.map g.spell = q.map g.spell) : p = q := by
  induction p generalizing q with
  | nil => exact (List.map_eq_nil_iff.1 h.symm).symm
  | cons s p ih =>
    cases q with
    | nil => cases h
    | cons t q =>
      obtain ⟨hst, hpq⟩ := List.cons.inj h
      have hrest := ih (fun m hm => hp m (List.mem_cons_of_mem s hm)) (fun m hm => hq m (List.mem_cons_of_mem t hm)) hpq
      cases t with
      | terminal c => rw [spell_eq_terminal_iff.1 hst, hrest]
      | nonterminal m =>
        obtain ⟨nt, rfl, hname⟩ := spell_eq_reference_iff.1 hst
        rw [hg nt (hp nt List.mem_cons_self) m (hq m List.mem_cons_self) hname, hrest]

theorem nodup_spelled {g : Grammar} (hg : g.NamesApart) (hwf : g.WellFormed) (nt : Nonterminal) : (g.spelled nt).Nodup := by
  have hnodup : (g.productionsOf nt).Nodup := ((g.rules.get? nt).getD .empty).nodup
  exact hnodup.map_on fun p hp q hq h => map_spell_inj hg (hwf.mention nt p hp) (hwf.mention nt q hq) h

/-! ## Printed grammars as definitions -/

/-- The definition that the line of a nonterminal gives. -/
def definitionOf (g : Grammar) (nt : Nonterminal) : Definition := ⟨g.nameOf nt, g.spelled nt⟩

/-- The definitions that a grammar is printed as. -/
def definitions (g : Grammar) : List Definition := g.shown.map g.definitionOf

/-- The nonterminals that have a line are those that have a production. -/
theorem mem_shown {g : Grammar} {nt : Nonterminal} : nt ∈ g.shown ↔ g.productionsOf nt ≠ [] := by
  rw [shown, List.mem_filter, Bool.not_eq_true', List.isEmpty_eq_false_iff]
  refine and_iff_right_of_imp fun hne => ?_
  by_cases hs : nt = g.start
  · simp [hs]
  · simp [hs, declared_of_productionsOf_ne_nil hne]

theorem nodup_shown (g : Grammar) : g.shown.Nodup := by
  have hrest : (g.declared.filter fun nt => nt ≠ g.start).Nodup := g.rules.nodup.filter _
  exact (List.nodup_cons.2 ⟨by simp, hrest⟩).filter _

/-- The line of a nonterminal is what is written for its definition. -/
theorem text_definitionOf (g : Grammar) (nt : Nonterminal) : (g.definitionOf nt).text = g.showLine nt := by
  have hsymbol : ∀ s, (g.spell s).text = g.showSymbol s := fun s => by cases s <;> rfl
  have hproduction : ∀ p : Production, (p.map g.spell).flatMap Atom.text = g.showProduction p := by
    intro p
    rw [List.flatMap_map, showProduction]
    exact List.flatMap_congr fun s _ => hsymbol s
  have hbody : Definition.bodyText (g.spelled nt) = g.showProductions (g.productionsOf nt) := by
    rw [Definition.bodyText_eq_intercalate, spelled, List.map_map, showProductions]
    exact congrArg _ (List.map_congr_left fun p _ => hproduction p)
  rw [Definition.text, definitionOf, hbody, showLine, showName]
  simp

/-- A grammar is printed as what is written for its definitions, one below the other. -/
theorem render_eq (g : Grammar) :
    g.render = String.ofList ((g.definitions.map Definition.text).flatMap fun line => line ++ ['\n']) := by
  rw [render, definitions, List.map_map, List.flatMap_map]
  exact congrArg _ (List.flatMap_congr fun nt _ => congrArg (· ++ ['\n']) (g.text_definitionOf nt).symm)

/-! ## Grammars of definitions by name -/

/-- A nonterminal of the grammar of some definitions is shown by the name that has its number. -/
theorem nameOf_ofDefinitions {ds : List Definition} {nt : Nonterminal} {name : String} (h : (namesOf ds)[nt]? = some name) :
    (ofDefinitions ds).nameOf nt = name :=
  nameOf_eq (names_ofDefinitions h)

theorem nameOf_idxOf {ds : List Definition} {name : String} (h : name ∈ namesOf ds) :
    (ofDefinitions ds).nameOf ((namesOf ds).idxOf name) = name :=
  nameOf_ofDefinitions (List.getElem?_idxOf h)

/-- The names of the definitions are what the declared nonterminals are shown by. -/
theorem exists_declared_ofDefinitions_iff {ds : List Definition} {name : String} :
    (∃ nt ∈ (ofDefinitions ds).declared, (ofDefinitions ds).nameOf nt = name) ↔ name ∈ namesOf ds := by
  constructor
  · rintro ⟨nt, hnt, rfl⟩
    obtain ⟨name, hname⟩ := mem_declared_ofDefinitions.1 hnt
    rw [nameOf_ofDefinitions hname]
    exact List.mem_of_getElem? hname
  · exact fun h => ⟨_, idxOf_mem_declared h, nameOf_idxOf h⟩

/-- In the grammar of some definitions, names tell nonterminals apart. -/
theorem namesApart_ofDefinitions (ds : List Definition) : (ofDefinitions ds).NamesApart := by
  intro nt hnt m hm h
  obtain ⟨name, hname⟩ := mem_declared_ofDefinitions.1 hnt
  obtain ⟨name', hname'⟩ := mem_declared_ofDefinitions.1 hm
  rw [nameOf_ofDefinitions hname, nameOf_ofDefinitions hname'] at h
  subst h
  obtain ⟨hlt, -⟩ := List.getElem?_eq_some_iff.1 hname
  exact (List.getElem?_inj hlt (nodup_distinct _)).1 (hname.trans hname'.symm)

/-- The atoms of a definition are spelled as they were written. -/
theorem spell_symbolOf {ds : List Definition} {d : Definition} (hd : d ∈ ds) {atoms : List Atom} (hatoms : atoms ∈ d.alternatives)
    {a : Atom} (ha : a ∈ atoms) : (ofDefinitions ds).spell (symbolOf (namesOf ds) a) = a := by
  cases a with
  | terminal c => rfl
  | reference other =>
    have hmem : other ∈ namesOf ds := mem_namesOf.2 ⟨d, hd, mem_names_of_reference hatoms ha⟩
    exact congrArg Atom.reference (nameOf_idxOf hmem)

/-- The alternatives that definitions give a name are spelled as they were written. -/
theorem map_spell_symbolOf {ds : List Definition} {name : String} {atoms : List Atom}
    (h : atoms ∈ (ds.filter fun d => d.head = name).flatMap Definition.alternatives) :
    (atoms.map (symbolOf (namesOf ds))).map (ofDefinitions ds).spell = atoms := by
  obtain ⟨d, hd, hatoms⟩ := List.mem_flatMap.1 h
  rw [List.map_map]
  exact (List.map_congr_left fun a ha => spell_symbolOf (List.mem_filter.1 hd).1 hatoms ha).trans (List.map_id atoms)

/-- The productions of the grammar of some definitions are their alternatives, each once, with numbers for names. -/
theorem productionsOf_ofDefinitions_eq_map {ds : List Definition} {nt : Nonterminal} {name : String}
    (h : (namesOf ds)[nt]? = some name) : (ofDefinitions ds).productionsOf nt =
      (distinct ((ds.filter fun d => d.head = name).flatMap Definition.alternatives)).map
        (List.map (symbolOf (namesOf ds))) := by
  have hproductions : productionsFor (namesOf ds) ds name =
      ((ds.filter fun d => d.head = name).flatMap Definition.alternatives).map (List.map (symbolOf (namesOf ds))) := by
    rw [productionsFor, List.map_flatMap]
  rw [productionsOf_ofDefinitions h, hproductions, distinct_map fun _ => map_spell_symbolOf]

/-- By name, the productions of the grammar of some definitions are their alternatives. -/
theorem spelled_ofDefinitions {ds : List Definition} {nt : Nonterminal} {name : String}
    (h : (namesOf ds)[nt]? = some name) : (ofDefinitions ds).spelled nt =
      distinct ((ds.filter fun d => d.head = name).flatMap Definition.alternatives) := by
  rw [spelled, productionsOf_ofDefinitions_eq_map h, List.map_map]
  exact (List.map_congr_left fun _ hatoms => map_spell_symbolOf (mem_distinct.1 hatoms)).trans (List.map_id _)

end Grammar

end TopDown
