import Mathlib.Data.List.Basic
import Mathlib.Data.List.Forall2
import Mathlib.Data.List.Induction
import TopDown.Grammar.OfText
import TopDown.Proofs.WellFormed

/-!
# Grammars from text are well-formed

Every name of a text gets a number, and the numbers are what is declared. A head or a reference is a name of the text, so
nothing undeclared is mentioned, and as there is a first name, the start is declared.

Main statement: `wellFormed_of_ofText`.
-/

namespace TopDown

namespace Table

variable {β : Type}

/-- Where no nonterminal has two pairs, the pair of a nonterminal is the only one. -/
theorem filter_eq_singleton {nt : Nonterminal} {b : β} {t : Table β} (hn : (t.map Prod.fst).Nodup) (h : (nt, b) ∈ t) :
    (t.filter fun entry => entry.1 = nt) = [(nt, b)] := by
  induction t with
  | nil => cases h
  | cons entry t ih =>
    obtain ⟨hfirst, ht⟩ := List.nodup_cons.1 hn
    rcases List.mem_cons.1 h with rfl | h
    · have hrest : (t.filter fun entry => entry.1 = nt) = [] := by
        refine List.filter_eq_nil_iff.2 fun other hother he => hfirst (List.mem_map.2 ⟨other, hother, ?_⟩)
        simpa using he
      rw [List.filter_cons_of_pos (by simp), hrest]
    · have hne : entry.1 ≠ nt := fun he => hfirst (List.mem_map.2 ⟨_, h, he.symm⟩)
      rw [List.filter_cons_of_neg (by simpa using hne), ih ht h]

end Table

namespace Rules

theorem declared_ofList (l : List (Nonterminal × List Production)) : (ofList l).declared = distinct (l.map Prod.fst) := by
  simp [declared, ofList, Function.comp_def]

/-- The productions of a nonterminal are those of its entries, each once. -/
theorem productionsOf_ofList (l : List (Nonterminal × List Production)) (nt : Nonterminal) :
    (ofList l).productionsOf nt = distinct ((l.filter fun entry => entry.1 = nt).flatMap Prod.snd) := by
  rw [productionsOf, get?, ofList, Table.get?_map_pair]
  split
  · rw [Option.getD_some, Alternatives.toList_ofList]
  · rename_i h
    have hnone : (l.filter fun entry => entry.1 = nt) = [] := by
      refine List.filter_eq_nil_iff.2 fun entry hentry he => h (mem_distinct.2 (List.mem_map.2 ⟨entry, hentry, ?_⟩))
      simpa using he
    rw [hnone]
    rfl

end Rules

namespace Names

/-- Where all nonterminals and all names are different, every pair is found. -/
theorem get?_ofList {pairs : Table String} (hfst : (pairs.map Prod.fst).Nodup) (hsnd : (pairs.map Prod.snd).Nodup)
    (nt : Nonterminal) : (ofList pairs).get? nt = Table.get? nt pairs := by
  induction pairs using List.reverseRecOn with
  | nil => rfl
  | append_singleton pairs pair ih =>
    obtain ⟨k, name⟩ := pair
    rw [List.map_append, List.nodup_append] at hfst hsnd
    have hold := ih hfst.1 hsnd.1
    rw [ofList, List.foldl_append, List.foldl_cons, List.foldl_nil, ← ofList, get?_insert, hold,
      Table.get?_append_singleton]
    by_cases hk : nt = k
    · have hnone : Table.get? nt pairs = none :=
        Table.get?_eq_none_iff.2 fun hmem => hfst.2.2 nt hmem k (by simp) hk
      simp [hk ▸ hnone, hk]
    · have hname : Table.get? nt pairs ≠ some name := fun hget =>
        hsnd.2.2 name (List.mem_map.2 ⟨_, Table.mem_of_get?_eq_some hget, rfl⟩) name (by simp) rfl
      simp [hk, hname]

end Names

/-- Members that were read one after the other were each read. -/
theorem mapM_eq_ok_iff {α β ε : Type} {f : α → Except ε β} {as : List α} {bs : List β} :
    as.mapM f = .ok bs ↔ List.Forall₂ (fun a b => f a = .ok b) as bs := by
  induction as generalizing bs with
  | nil => simp [pure, Except.pure, eq_comm]
  | cons a as ih =>
    rw [List.mapM_cons, List.forall₂_cons_left_iff]
    simp only [← ih]
    cases f a <;> cases as.mapM f <;> simp [bind, Except.bind, pure, Except.pure, eq_comm]

/-- The pairs of numbers and what belongs to the names that have them. -/
theorem mem_zipIdx_map {β : Type} {f : String → β} {names : List String} {i : Nat} {b : β} :
    (i, b) ∈ (names.zipIdx.map fun entry => (entry.2, f entry.1)) ↔ ∃ name, names[i]? = some name ∧ f name = b := by
  rw [List.mem_map]
  constructor
  · rintro ⟨⟨name, k⟩, hmem, heq⟩
    cases heq
    exact ⟨name, List.mem_zipIdx_iff_getElem?.1 hmem, rfl⟩
  · rintro ⟨name, hname, rfl⟩
    exact ⟨(name, i), List.mem_zipIdx_iff_getElem?.2 hname, rfl⟩

/-- No number is given twice. -/
theorem nodup_zipIdx_map {β : Type} (f : String → β) (names : List String) :
    ((names.zipIdx.map fun entry => (entry.2, f entry.1)).map Prod.fst).Nodup := by
  have h : (names.zipIdx.map fun entry => (entry.2, f entry.1)).map Prod.fst = names.zipIdx.map Prod.snd := by
    simp [Function.comp_def]
  rw [h, List.zipIdx_map_snd]
  exact List.nodup_range'

namespace Grammar

/-- The heads and references of the definitions are their names. -/
theorem mem_namesOf {ds : List Definition} {name : String} : name ∈ namesOf ds ↔ ∃ d ∈ ds, name ∈ d.names := by
  rw [namesOf, mem_distinct, List.mem_flatMap]

/-- As many numbers are declared as there are names, from zero on. -/
theorem declared_ofDefinitions (ds : List Definition) : (ofDefinitions ds).declared = List.range (namesOf ds).length := by
  have h : (ofDefinitions ds).declared = distinct ((namesOf ds).zipIdx.map Prod.snd) := by
    rw [ofDefinitions, declared, Rules.declared_ofList, List.map_map]
    rfl
  rw [h, List.zipIdx_map_snd, ← List.range_eq_range', distinct_eq_self List.nodup_range]

/-- What is declared are the numbers of the names. -/
theorem mem_declared_ofDefinitions {ds : List Definition} {nt : Nonterminal} :
    nt ∈ (ofDefinitions ds).declared ↔ ∃ name, (namesOf ds)[nt]? = some name := by
  rw [declared_ofDefinitions, List.mem_range]
  exact ⟨fun h => ⟨_, List.getElem?_eq_getElem h⟩, fun ⟨_, h⟩ => (List.getElem?_eq_some_iff.1 h).1⟩

theorem idxOf_mem_declared {ds : List Definition} {name : String} (h : name ∈ namesOf ds) :
    (namesOf ds).idxOf name ∈ (ofDefinitions ds).declared :=
  mem_declared_ofDefinitions.2 ⟨name, List.getElem?_idxOf h⟩

/-- The name of a number is the one that has its place. -/
theorem get?_names_ofDefinitions (ds : List Definition) (nt : Nonterminal) :
    (ofDefinitions ds).names.get? nt = (namesOf ds)[nt]? := by
  let pairs : Table String := (namesOf ds).zipIdx.map fun entry => (entry.2, entry.1)
  have hfst : (pairs.map Prod.fst).Nodup := nodup_zipIdx_map (fun name => name) _
  have hsnd : pairs.map Prod.snd = namesOf ds := by simp [pairs, Function.comp_def]
  have hget : (ofDefinitions ds).names.get? nt = Table.get? nt pairs :=
    Names.get?_ofList hfst (hsnd ▸ nodup_distinct _) nt
  refine Option.ext fun name => ?_
  rw [hget, Table.get?_eq_some_iff hfst, mem_zipIdx_map (f := fun name => name)]
  simp

/-- A name that has a number is shown for it. -/
theorem names_ofDefinitions {ds : List Definition} {nt : Nonterminal} {name : String} (h : (namesOf ds)[nt]? = some name) :
    (ofDefinitions ds).names.get? nt = some name :=
  (get?_names_ofDefinitions ds nt).trans h

/-- The productions of a number are those that the definitions give its name, each once. -/
theorem productionsOf_ofDefinitions {ds : List Definition} {nt : Nonterminal} {name : String}
    (h : (namesOf ds)[nt]? = some name) :
    (ofDefinitions ds).productionsOf nt = distinct (productionsFor (namesOf ds) ds name) := by
  have hproductions : (ofDefinitions ds).productionsOf nt = distinct
      ((((namesOf ds).zipIdx.map fun entry => (entry.2, productionsFor (namesOf ds) ds entry.1)).filter
        fun entry => entry.1 = nt).flatMap Prod.snd) := Rules.productionsOf_ofList _ nt
  rw [hproductions, Table.filter_eq_singleton (nodup_zipIdx_map _ _) (mem_zipIdx_map.2 ⟨name, h, rfl⟩),
    List.flatMap_singleton]

/-- A production of a name is an alternative of one of the definitions, with numbers for names. -/
theorem mem_productionsFor {names : List String} {ds : List Definition} {name : String} {p : Production} :
    p ∈ productionsFor names ds name ↔
      ∃ d ∈ ds, d.head = name ∧ ∃ atoms ∈ d.alternatives, p = atoms.map (symbolOf names) := by
  simp [productionsFor, and_assoc, eq_comm]

/-- A number that an alternative mentions is the number of a name that it refers to. -/
theorem exists_reference_of_mem {names : List String} {atoms : List Atom} {m : Nonterminal}
    (h : .nonterminal m ∈ atoms.map (symbolOf names)) : ∃ name, .reference name ∈ atoms ∧ m = names.idxOf name := by
  obtain ⟨atom, hatom, heq⟩ := List.mem_map.1 h
  cases atom with
  | terminal c => cases heq
  | reference name =>
    cases heq
    exact ⟨name, hatom, rfl⟩

/-- A reference in an alternative of a definition is one of its names. -/
theorem mem_names_of_reference {d : Definition} {atoms : List Atom} {name : String} (ha : atoms ∈ d.alternatives)
    (h : .reference name ∈ atoms) : name ∈ d.names := by
  refine List.mem_cons_of_mem _ (List.mem_filterMap.2 ⟨.reference name, ?_, rfl⟩)
  exact List.mem_flatten.2 ⟨atoms, ha, h⟩

/-- A production of the grammar of some definitions is an alternative of a definition of the name. -/
theorem exists_of_mem_productionsOf_ofDefinitions {ds : List Definition} {nt : Nonterminal} {p : Production}
    (h : p ∈ (ofDefinitions ds).productionsOf nt) :
    ∃ d ∈ ds, (namesOf ds)[nt]? = some d.head ∧ ∃ atoms ∈ d.alternatives, p = atoms.map (symbolOf (namesOf ds)) := by
  obtain ⟨name, hname⟩ := mem_declared_ofDefinitions.1 (declared_of_mem_productionsOf h)
  rw [productionsOf_ofDefinitions hname, mem_distinct] at h
  obtain ⟨d, hd, rfl, hatoms⟩ := mem_productionsFor.1 h
  exact ⟨d, hd, hname, hatoms⟩

/-- The grammar of some definitions is well-formed, if there are any. -/
theorem wellFormed_ofDefinitions {ds : List Definition} (h : ds ≠ []) : (ofDefinitions ds).WellFormed := by
  constructor
  · obtain ⟨d, hd⟩ := List.exists_mem_of_ne_nil ds h
    have hname : d.head ∈ namesOf ds := mem_namesOf.2 ⟨d, hd, List.mem_cons_self⟩
    exact mem_declared_ofDefinitions.2 ⟨_, List.getElem?_eq_getElem (List.length_pos_of_mem hname)⟩
  · intro nt p hp m hm
    obtain ⟨d, hd, -, atoms, hatoms, rfl⟩ := exists_of_mem_productionsOf_ofDefinitions hp
    obtain ⟨name, hname, rfl⟩ := exists_reference_of_mem hm
    exact idxOf_mem_declared (mem_namesOf.2 ⟨d, hd, mem_names_of_reference hatoms hname⟩)

/-- A numbered line is read as the line is. -/
theorem readLine_eq_ok_iff {line : List Char × Nat} {d : Definition} :
    readLine line = .ok d ↔ Definition.ofLine line.1 = .ok d := by
  rw [readLine]
  cases Definition.ofLine line.1 <;> simp [Except.mapError]

/-- Definitions that were read came each from one of the lines. -/
theorem exists_line_of_mapM_readLine {ls : List (List Char × Nat)} {ds : List Definition} (h : ls.mapM readLine = .ok ds) :
    ∀ d ∈ ds, ∃ line ∈ ls, Definition.ofLine line.1 = .ok d := by
  have hread := mapM_eq_ok_iff.1 h
  clear h
  induction hread with
  | nil => simp
  | cons hline _ ih =>
    refine List.forall_mem_cons.2 ⟨⟨_, List.mem_cons_self, readLine_eq_ok_iff.1 hline⟩, fun d hd => ?_⟩
    obtain ⟨line, hmem, hd⟩ := ih d hd
    exact ⟨line, List.mem_cons_of_mem _ hmem, hd⟩

/-- A grammar that a text gives is the grammar of definitions that were read from lines of the text. -/
theorem exists_definitions_of_ofText {text : String} {g : Grammar} (h : ofText text = .ok g) :
    ∃ ds, ds ≠ [] ∧ g = ofDefinitions ds ∧ ∀ d ∈ ds, ∃ line ∈ Text.lines text.toList, Definition.ofLine line = .ok d := by
  unfold ofText at h
  cases hds : (numberedLines text).mapM readLine with
  | error e =>
    rw [hds] at h
    cases h
  | ok ds =>
    rw [hds] at h
    simp only [bind, Except.bind] at h
    split at h
    · cases h
    · rename_i hne
      cases h
      refine ⟨ds, fun he => hne (List.isEmpty_iff.2 he), rfl, fun d hd => ?_⟩
      obtain ⟨⟨line, k⟩, hmem, hline⟩ := exists_line_of_mapM_readLine hds d hd
      exact ⟨line, List.fst_mem_of_mem_zipIdx (List.mem_filter.1 hmem).1, hline⟩

/-- A grammar that a text gives is well-formed. -/
theorem wellFormed_of_ofText {text : String} {g : Grammar} (h : ofText text = .ok g) : g.WellFormed := by
  obtain ⟨ds, hne, rfl, -⟩ := exists_definitions_of_ofText h
  exact wellFormed_ofDefinitions hne

end Grammar

end TopDown
