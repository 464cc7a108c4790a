import TopDown.Grammar.Loader
import TopDown.Proofs.Format
import TopDown.Proofs.Spelling

/-!
# What the loader builds

While a text is loaded, the next number, the names and the rules are tied to what has been read: the names met so far have the
numbers from zero on, in the order in which they were met, these numbers are declared in that order, and each has the alternatives
that its name was given. Meeting a name keeps this, so does adding an alternative, and so does a line. In the end the loader
holds the grammar of all definitions at once.

Main statements: `Loader.Holds.load` (one line), `Loader.holds_foldl` (a text), `Loader.ofText_eq` and `Grammar.ofText_builds`.
-/

namespace TopDown

/-! ## First appearances -/

/-- A list holds each member of another once, in the order in which they first appear there. -/
structure FirstAppearances {α : Type} [DecidableEq α] (kept all : List α) : Prop where
  mem : ∀ a, a ∈ kept ↔ a ∈ all
  order : kept.Pairwise fun a b => all.idxOf a < all.idxOf b

section FirstAppearances

variable {α : Type} [DecidableEq α]

/-- Dropping later repetitions leaves first appearances. -/
theorem firstAppearances_distinct (l : List α) : FirstAppearances (distinct l) l := by
  refine ⟨fun a => mem_distinct, ?_⟩
  induction l with
  | nil => exact List.Pairwise.nil
  | cons a l ih =>
    have hne : ∀ b ∈ (distinct l).filter (· ≠ a), b ≠ a := fun b hb => by simpa using (List.mem_filter.1 hb).2
    refine List.pairwise_cons.2 ⟨fun b hb => ?_, (ih.filter _).imp_of_mem fun {b c} hb hc hlt => ?_⟩
    · rw [List.idxOf_cons_self, List.idxOf_cons_ne _ (hne b hb).symm]
      exact Nat.succ_pos _
    · rw [List.idxOf_cons_ne _ (hne b hb).symm, List.idxOf_cons_ne _ (hne c hc).symm]
      exact Nat.succ_lt_succ hlt

end FirstAppearances

/-! ## Looking up -/

namespace Names

theorem nodup_named (n : Names) : (n.entries.map Prod.fst).Nodup :=
  List.pairwise_map.2 (n.sorted.imp Nat.ne_of_lt)

/-- The pairs can be looked up from both sides. -/
theorem find?_eq_some_iff {n : Names} {nt : Nonterminal} {name : String} :
    n.find? name = some nt ↔ n.get? nt = some name := by
  rw [get?, Table.get?_eq_some_iff n.nodup_named, find?, Option.map_eq_some_iff]
  constructor
  · rintro ⟨⟨k, b⟩, hfound, rfl⟩
    have hname : b = name := by simpa using List.find?_some hfound
    exact hname ▸ List.mem_of_find?_eq_some hfound
  · intro hmem
    cases hfound : n.entries.find? fun entry => entry.2 = name with
    | none => simpa using List.find?_eq_none.1 hfound _ hmem
    | some entry =>
      have hname : entry.2 = name := by simpa using List.find?_some hfound
      have hentry := List.inj_on_of_nodup_map n.nodup (List.mem_of_find?_eq_some hfound) hmem hname
      exact ⟨entry, rfl, congrArg Prod.fst hentry⟩

/-- Tables in which every nonterminal has the same name are the same. -/
theorem ext_get? {n m : Names} (h : ∀ nt, n.get? nt = m.get? nt) : n = m := by
  have hmem : ∀ entry, entry ∈ n.entries ↔ entry ∈ m.entries := fun ⟨nt, name⟩ => by
    rw [← Table.get?_eq_some_iff n.nodup_named, ← Table.get?_eq_some_iff m.nodup_named]
    exact iff_of_eq (congrArg (· = some name) (h nt))
  exact Names.ext (n.sorted.eq_of_mem_iff m.sorted hmem)

end Names

/-! ## Numbers that stay -/

theorem Definition.names_concat (head : String) (done : List (List Atom)) (atoms : List Atom) :
    names ⟨head, done ++ [atoms]⟩ = names ⟨head, done⟩ ++ atoms.filterMap Atom.reference? := by
  simp [names]

theorem getElem?_concat {α : Type} (l : List α) (a : α) (i : Nat) :
    (l ++ [a])[i]? = if i = l.length then some a else l[i]? := by
  grind

namespace Grammar

/-- A name that has been met keeps its number. -/
theorem idxOf_distinct_append {met : List String} {name : String} (h : name ∈ met) (more : List String) :
    (distinct (met ++ more)).idxOf name = (distinct met).idxOf name := by
  rw [distinct_append, List.idxOf_append_of_mem (mem_distinct.2 h)]

/-- The number of a name is its place. -/
theorem idxOf_distinct_eq {met : List String} {name : String} {nt : Nonterminal} (h : (distinct met)[nt]? = some name) :
    (distinct met).idxOf name = nt := by
  obtain ⟨hlt, rfl⟩ := List.getElem?_eq_some_iff.1 h
  exact (nodup_distinct met).idxOf_getElem nt hlt

/-- A name that has not been met gets the next number. -/
theorem idxOf_distinct_concat {met : List String} {name : String} (h : name ∉ met) :
    (distinct (met ++ [name])).idxOf name = (distinct met).length := by
  rw [distinct_concat, if_neg h, List.idxOf_append_of_notMem (mt mem_distinct.1 h), List.idxOf_cons_self, Nat.add_zero]

/-- An alternative whose names have been met gives the same production from then on. -/
theorem map_symbolOf_append {met more : List String} {atoms : List Atom} (h : ∀ name, .reference name ∈ atoms → name ∈ met) :
    atoms.map (symbolOf (distinct (met ++ more))) = atoms.map (symbolOf (distinct met)) := by
  refine List.map_congr_left fun a ha => ?_
  cases a with
  | terminal c => rfl
  | reference name => exact congrArg Symbol.nonterminal (idxOf_distinct_append (h name ha) more)

/-- Definitions whose names have been met give the same productions from then on. -/
theorem productionsFor_append {met more : List String} {ds : List Definition} (h : ∀ d ∈ ds, ∀ name ∈ d.names, name ∈ met)
    (name : String) : productionsFor (distinct (met ++ more)) ds name = productionsFor (distinct met) ds name := by
  refine List.flatMap_congr fun d hd => List.map_congr_left fun atoms hatoms => map_symbolOf_append fun other hother => ?_
  exact h d (List.mem_filter.1 hd).1 other (mem_names_of_reference hatoms hother)

/-- Definitions give nothing to a name that is the head of none. -/
theorem productionsFor_eq_nil {ds : List Definition} {name : String} (h : ∀ d ∈ ds, d.head ≠ name) (names : List String) :
    productionsFor names ds name = [] := by
  have hfilter : (ds.filter fun d => d.head = name) = [] :=
    List.filter_eq_nil_iff.2 fun d hd he => h d hd (of_decide_eq_true he)
  rw [productionsFor, hfilter, List.flatMap_nil]

/-- One more alternative of the last definition is one more production of its name. -/
theorem productionsFor_concat (names : List String) (ds : List Definition) (head : String) (done : List (List Atom))
    (atoms : List Atom) (name : String) :
    productionsFor names (ds ++ [⟨head, done ++ [atoms]⟩]) name =
      productionsFor names (ds ++ [⟨head, done⟩]) name ++ if head = name then [atoms.map (symbolOf names)] else [] := by
  simp only [productionsFor, List.filter_append, List.flatMap_append]
  by_cases h : head = name <;> simp [h]

/-- A definition without alternatives gives nothing. -/
theorem productionsFor_concat_nil (names : List String) (ds : List Definition) (head name : String) :
    productionsFor names (ds ++ [⟨head, []⟩]) name = productionsFor names ds name := by
  simp only [productionsFor, List.filter_append, List.flatMap_append]
  by_cases h : head = name <;> simp [h]

end Grammar

/-! ## The loader -/

namespace Loader

open Grammar (namesOf symbolOf productionsFor numberedLines)

/-- What a loader holds when it has met these names and was given these definitions: the names have the numbers from zero on in
the order in which they were met, the numbers are declared in that order, and each has the productions that its name was given. -/
structure Holds (l : Loader) (met : List String) (ds : List Definition) : Prop where
  next : l.next = (distinct met).length
  names : ∀ nt, l.names.get? nt = (distinct met)[nt]?
  declared : l.rules.declared = List.range (distinct met).length
  productions : ∀ name ∈ met, l.rules.productionsOf ((distinct met).idxOf name) =
    distinct (productionsFor (distinct met) ds name)
  known : ∀ d ∈ ds, ∀ name ∈ d.names, name ∈ met

/-- At first nothing has been met. -/
theorem holds_empty : empty.Holds [] [] where
  next := rfl
  names _ := rfl
  declared := rfl
  productions _ h := nomatch h
  known _ h := nomatch h

namespace Holds

variable {l : Loader} {met : List String} {ds : List Definition}

/-- The names that have been met are those that have a number. -/
theorem find?_eq_some_iff (h : l.Holds met ds) {name : String} {nt : Nonterminal} :
    l.names.find? name = some nt ↔ (distinct met)[nt]? = some name := by
  rw [Names.find?_eq_some_iff, h.names]

/-- Meeting a name again changes nothing. -/
theorem again (h : l.Holds met ds) {name : String} (hname : name ∈ met) : l.Holds (met ++ [name]) ds := by
  have hsame : distinct (met ++ [name]) = distinct met := (distinct_concat met name).trans (if_pos hname)
  obtain ⟨next, names, declared, productions, known⟩ := h
  refine ⟨hsame ▸ next, hsame ▸ names, hsame ▸ declared, fun other hother => ?_, fun d hd other hother => ?_⟩
  · have hmet : other ∈ met := by
      rcases List.mem_append.1 hother with hother | hother
      · exact hother
      · exact List.mem_singleton.1 hother ▸ hname
    rw [hsame, productions other hmet]
  · exact List.mem_append_left _ (known d hd other hother)

/-- A new name gets the next number and is declared last, with no production. -/
theorem new (h : l.Holds met ds) {name : String} (hname : name ∉ met) :
    Holds ⟨l.next + 1, l.names.insert l.next name, l.rules.set l.next .empty⟩ (met ++ [name]) ds := by
  have hmore : distinct (met ++ [name]) = distinct met ++ [name] := (distinct_concat met name).trans (if_neg hname)
  have hfresh : l.next ∉ l.rules.declared := by
    rw [h.declared, h.next]
    exact List.not_mem_range_self
  refine ⟨?_, fun nt => ?_, ?_, fun other hother => ?_, fun d hd other hother => ?_⟩
  · rw [hmore, List.length_append, List.length_singleton, h.next]
  · have hother : (distinct met)[nt]? ≠ some name := fun hget => hname (mem_distinct.1 (List.mem_of_getElem? hget))
    rw [Names.get?_insert, h.names, if_neg hother, hmore, getElem?_concat, h.next]
  · rw [Rules.declared_set, if_neg hfresh, hmore, List.length_append, List.length_singleton, List.range_succ, h.declared, h.next]
  · rw [Rules.productionsOf_set, Grammar.productionsFor_append h.known]
    by_cases hmet : other ∈ met
    · have hlt : (distinct met).idxOf other < l.next := h.next ▸ List.idxOf_lt_length_of_mem (mem_distinct.2 hmet)
      rw [Grammar.idxOf_distinct_append hmet, if_neg (Nat.ne_of_lt hlt), h.productions other hmet]
    · obtain rfl : other = name := by simpa [hmet] using hother
      have hhead : ∀ d ∈ ds, d.head ≠ other := fun d hd he => hmet (he ▸ h.known d hd d.head List.mem_cons_self)
      rw [Grammar.idxOf_distinct_concat hmet, if_pos h.next.symm, Grammar.productionsFor_eq_nil hhead]
      rfl
  · exact List.mem_append_left _ (h.known d hd other hother)

/-- A name is met: the loader gives its number, which it has for the first time now or keeps. -/
theorem intern (h : l.Holds met ds) (name : String) :
    (l.intern name).1 = (distinct (met ++ [name])).idxOf name ∧ (l.intern name).2.Holds (met ++ [name]) ds := by
  unfold Loader.intern
  split
  · rename_i nt hfound
    have hget := h.find?_eq_some_iff.1 hfound
    have hmet : name ∈ met := mem_distinct.1 (List.mem_of_getElem? hget)
    exact ⟨by rw [Grammar.idxOf_distinct_append hmet, Grammar.idxOf_distinct_eq hget], h.again hmet⟩
  · rename_i hnone
    have hmet : name ∉ met := fun hmem => by
      have hget := h.find?_eq_some_iff.2 (List.getElem?_idxOf (mem_distinct.2 hmem))
      rw [hnone] at hget
      cases hget
    exact ⟨h.next.trans (Grammar.idxOf_distinct_concat hmet).symm, h.new hmet⟩

/-- The names of an alternative are met from left to right, and it gives the production with their numbers. -/
theorem internAtoms (h : l.Holds met ds) (atoms : List Atom) :
    (l.internAtoms atoms).1 = atoms.map (symbolOf (distinct (met ++ atoms.filterMap Atom.reference?))) ∧
      (l.internAtoms atoms).2.Holds (met ++ atoms.filterMap Atom.reference?) ds := by
  induction atoms generalizing l met with
  | nil => exact ⟨rfl, by simpa [Loader.internAtoms] using h⟩
  | cons a atoms ih =>
    cases a with
    | terminal c =>
      obtain ⟨hproduction, hholds⟩ := ih h
      exact ⟨congrArg (Symbol.terminal c :: ·) hproduction, hholds⟩
    | reference name =>
      obtain ⟨hnumber, hname⟩ := h.intern name
      obtain ⟨hproduction, hholds⟩ := ih hname
      have hnames : met ++ (Atom.reference name :: atoms).filterMap Atom.reference? =
          met ++ [name] ++ atoms.filterMap Atom.reference? := by simp [Atom.reference?]
      rw [hnames]
      refine ⟨?_, hholds⟩
      have hmet : name ∈ met ++ [name] := List.mem_concat_self
      have hkept := Grammar.idxOf_distinct_append hmet (atoms.filterMap Atom.reference?)
      simp only [Loader.internAtoms, internAtom, List.map_cons, symbolOf, hnumber, hproduction, hkept]

/-- A head is met before its first alternative. -/
theorem begin (h : l.Holds met ds) {head : String} (hhead : head ∈ met) : l.Holds met (ds ++ [⟨head, []⟩]) where
  next := h.next
  names := h.names
  declared := h.declared
  productions name hname := by rw [Grammar.productionsFor_concat_nil, h.productions name hname]
  known := by
    refine List.forall_mem_append.2 ⟨h.known, List.forall_mem_singleton.2 fun name hname => ?_⟩
    obtain rfl : name = head := by simpa [Definition.names] using hname
    exact hhead

/-- An alternative is added to the last definition. -/
theorem addAlternative {head : String} {done : List (List Atom)} (h : l.Holds met (ds ++ [⟨head, done⟩])) (atoms : List Atom) :
    (Loader.addAlternative ((distinct met).idxOf head) l atoms).Holds (met ++ atoms.filterMap Atom.reference?)
      (ds ++ [⟨head, done ++ [atoms]⟩]) := by
  have hhead : head ∈ met := h.known ⟨head, done⟩ (by simp) head List.mem_cons_self
  obtain ⟨hproduction, hholds⟩ := h.internAtoms atoms
  have hmet : head ∈ met ++ atoms.filterMap Atom.reference? := List.mem_append_left _ hhead
  rw [Loader.addAlternative, ← Grammar.idxOf_distinct_append hhead (atoms.filterMap Atom.reference?)]
  generalize l.internAtoms atoms = result at hproduction hholds ⊢
  obtain ⟨p, l⟩ := result
  subst hproduction
  refine ⟨hholds.next, hholds.names, ?_, fun name hname => ?_, List.forall_mem_append.2 ⟨?_, ?_⟩⟩
  · have hlt := List.idxOf_lt_length_of_mem (mem_distinct.2 hmet)
    rw [Rules.declared_set, if_pos (by rwa [hholds.declared, List.mem_range]), hholds.declared]
  · rw [Rules.productionsOf_set, Grammar.productionsFor_concat]
    by_cases he : head = name
    · subst he
      rw [if_pos rfl, if_pos rfl, Alternatives.toList_ofList, hholds.productions head hmet, distinct_distinct_append]
    · have hne := fun hnumber => he ((List.idxOf_inj (mem_distinct.2 hname)).1 hnumber).symm
      rw [if_neg hne, if_neg he, List.append_nil, hholds.productions name hname]
  · exact fun d hd => hholds.known d (List.mem_append_left _ hd)
  · refine List.forall_mem_singleton.2 fun name hname => ?_
    rw [Definition.names_concat] at hname
    rcases List.mem_append.1 hname with hname | hname
    · exact hholds.known ⟨head, done⟩ (by simp) name hname
    · exact List.mem_append_right met hname

/-- Alternatives are added to the last definition one by one. -/
theorem foldl_addAlternative {head : String} {done : List (List Atom)} (h : l.Holds met (ds ++ [⟨head, done⟩]))
    (alternatives : List (List Atom)) :
    (alternatives.foldl (Loader.addAlternative ((distinct met).idxOf head)) l).Holds
      (met ++ alternatives.flatten.filterMap Atom.reference?) (ds ++ [⟨head, done ++ alternatives⟩]) := by
  induction alternatives generalizing l met done with
  | nil => simpa using h
  | cons atoms alternatives ih =>
    have hhead : head ∈ met := h.known ⟨head, done⟩ (by simp) head List.mem_cons_self
    have hrest := ih (h.addAlternative atoms)
    rw [Grammar.idxOf_distinct_append hhead] at hrest
    simpa using hrest

/-- A line is loaded: its names have been met after those before, and its definition was given. -/
theorem load (h : l.Holds met ds) (d : Definition) : (l.load d).Holds (met ++ d.names) (ds ++ [d]) := by
  obtain ⟨hnumber, hhead⟩ := h.intern d.head
  have hbegun := hhead.begin (List.mem_append_right met List.mem_cons_self)
  have hloaded := hbegun.foldl_addAlternative d.alternatives
  rw [← hnumber, List.append_assoc] at hloaded
  exact hloaded

/-- Lines are loaded one after the other. -/
theorem foldl_load (h : l.Holds met ds) (more : List Definition) :
    (more.foldl Loader.load l).Holds (met ++ more.flatMap Definition.names) (ds ++ more) := by
  induction more generalizing l met ds with
  | nil => simpa using h
  | cons d more ih => simpa using ih (h.load d)

/-- What a loader holds is determined by what it met and was given. -/
theorem unique {m : Loader} (h : l.Holds met ds) (hm : m.Holds met ds) : l = m := by
  have hnames : l.names = m.names := Names.ext_get? fun nt => (h.names nt).trans (hm.names nt).symm
  have hrules : l.rules = m.rules := by
    refine Rules.ext_productionsOf (h.declared.trans hm.declared.symm) fun nt hnt => ?_
    rw [hm.declared, List.mem_range] at hnt
    have hname := mem_distinct.1 (List.getElem_mem hnt)
    have hnumber := Grammar.idxOf_distinct_eq (List.getElem?_eq_getElem hnt)
    rw [← hnumber, h.productions _ hname, hm.productions _ hname]
  obtain ⟨next, names, rules⟩ := l
  obtain ⟨next', names', rules'⟩ := m
  cases hnames
  cases hrules
  cases h.next.trans hm.next.symm
  rfl

end Holds

/-- After some definitions a loader has met their names, in order, and was given the definitions. -/
theorem holds_foldl (ds : List Definition) : (ds.foldl load empty).Holds (ds.flatMap Definition.names) ds :=
  holds_empty.foldl_load ds

/-- The grammar of all definitions at once is what a loader would hold. -/
theorem holds_ofDefinitions (ds : List Definition) :
    Holds ⟨(namesOf ds).length, (Grammar.ofDefinitions ds).names, (Grammar.ofDefinitions ds).rules⟩
      (ds.flatMap Definition.names) ds where
  next := rfl
  names := Grammar.get?_names_ofDefinitions ds
  declared := Grammar.declared_ofDefinitions ds
  productions _ hname := Grammar.productionsOf_ofDefinitions (List.getElem?_idxOf (mem_distinct.2 hname))
  known d hd _ hname := List.mem_flatMap.2 ⟨d, hd, hname⟩

/-- What was loaded line by line is the grammar of all definitions at once, unless there are none. -/
theorem finish_foldl (ds : List Definition) : (ds.foldl load empty).finish =
    if ds.isEmpty then .error .emptyGrammar else .ok (Grammar.ofDefinitions ds) := by
  rw [(holds_foldl ds).unique (holds_ofDefinitions ds), finish]
  cases ds with
  | nil => rfl
  | cons d ds =>
    have hdeclared : (Grammar.ofDefinitions (d :: ds)).rules.declared = 0 :: (List.range _).map Nat.succ :=
      (Grammar.declared_ofDefinitions (d :: ds)).trans List.range_succ_eq_map
    simp only [hdeclared]
    rfl

/-- Lines are read and loaded one after the other as if all were read first. -/
theorem foldlM_loadLine (ls : List (List Char × Nat)) (l : Loader) :
    ls.foldlM loadLine l = (fun ds => ds.foldl load l) <$> ls.mapM Grammar.readLine := by
  induction ls generalizing l with
  | nil => rfl
  | cons line ls ih =>
    rw [List.foldlM_cons, List.mapM_cons, loadLine]
    cases Grammar.readLine line with
    | error e => rfl
    | ok d =>
      refine (ih (l.load d)).trans ?_
      cases ls.mapM Grammar.readLine <;> rfl

/-- A text gives the same grammar, or the same error, line by line as at once. -/
theorem ofText_eq (text : String) : ofText text = Grammar.ofText text := by
  unfold ofText Grammar.ofText
  rw [foldlM_loadLine]
  cases (numberedLines text).mapM Grammar.readLine with
  | error e => rfl
  | ok ds => exact finish_foldl ds

end Loader

/-! ## What a text builds -/

namespace Grammar

/-- A grammar is built from definitions with these names. The names are those of the definitions in order of first appearance.
Each has its place for its number, all numbers are declared in ascending order, and the start is the head of the first
definition. The grammar is well-formed, and the productions of a number are the alternatives of the definitions of its name,
without later repetitions, with numbers for names. -/
structure BuiltFrom (g : Grammar) (ds : List Definition) (names : List String) : Prop where
  order : FirstAppearances names (ds.flatMap Definition.names)
  named : ∀ nt name, g.names.get? nt = some name ↔ names[nt]? = some name
  numbered : ∀ nt name, g.names.find? name = some nt ↔ names[nt]? = some name
  declared : g.declared = List.range names.length
  start : g.start = 0 ∧ ∃ first rest, ds = first :: rest ∧ names[0]? = some first.head
  validate : g.validate = .ok ()
  productions : ∀ nt name, names[nt]? = some name → ∃ kept,
    FirstAppearances kept ((ds.filter fun d => d.head = name).flatMap Definition.alternatives) ∧
      g.productionsOf nt = kept.map (List.map (symbolOf names))

/-- The grammar of some definitions is built from them. -/
theorem builtFrom_ofDefinitions {ds : List Definition} (h : ds ≠ []) : (ofDefinitions ds).BuiltFrom ds (namesOf ds) where
  order := firstAppearances_distinct _
  named nt name := by rw [get?_names_ofDefinitions]
  numbered nt name := by rw [Names.find?_eq_some_iff, get?_names_ofDefinitions]
  declared := declared_ofDefinitions ds
  start := by
    obtain ⟨first, rest, rfl⟩ := List.exists_cons_of_ne_nil h
    exact ⟨rfl, first, rest, rfl, rfl⟩
  validate := validate_eq_ok_iff.2 (wellFormed_ofDefinitions h)
  productions nt name hname := ⟨_, firstAppearances_distinct _, productionsOf_ofDefinitions_eq_map hname⟩

/-- What a text builds. Loaded line by line, the text gives the same grammar; every line that is not blank says a definition, and
the grammar is built from these definitions in the order of the lines. -/
theorem ofText_builds {text : String} {g : Grammar} (h : ofText text = .ok g) :
    Loader.ofText text = .ok g ∧
      ∃ ds names, List.Forall₂ (fun line d => Definition.Says line.1 d) (numberedLines text) ds ∧ g.BuiltFrom ds names := by
  refine ⟨(Loader.ofText_eq text).trans h, ?_⟩
  rcases ofText_cases text with ⟨e, -, htext⟩ | ⟨-, htext⟩ | ⟨hne, ds, hread, htext⟩
  · rw [htext] at h
    cases h
  · rw [htext] at h
    cases h
  · rw [htext] at h
    cases h
    have hsays : List.Forall₂ (fun line d => Definition.Says line.1 d) (numberedLines text) ds :=
      (mapM_eq_ok_iff.1 hread).imp fun line d hline => Definition.ofLine_eq_ok_iff_says.1 (readLine_eq_ok_iff.1 hline)
    refine ⟨ds, namesOf ds, hsays, builtFrom_ofDefinitions fun hnil => hne ?_⟩
    rw [hnil] at hsays
    exact List.forall₂_nil_right_iff.1 hsays

/-- What a text builds in which heads and alternatives are repeated and a name is only mentioned. -/
def merging : Grammar :=
  ⟨0, .ofList [(0, [[.nonterminal 1, .terminal 'a'], [.nonterminal 2, .nonterminal 3]]),
      (1, [[.terminal 'a'], [.terminal 'b'], []]), (2, []), (3, [[.nonterminal 1]])],
    .ofList [(0, "S"), (1, "A"), (2, "B"), (3, "C")]⟩

/-- Names have numbers in order of first appearance, also where they are only mentioned, and repeated alternatives are merged. -/
theorem ofText_builds_merging :
    ofText "<S>::=<A>a|<B><C>\n\n<A>::=a|b|a\n <C> ::=<A>\n<A>::=b|" = .ok merging ∧
      Loader.ofText "<S>::=<A>a|<B><C>\n\n<A>::=a|b|a\n <C> ::=<A>\n<A>::=b|" = .ok merging ∧
      ∃ ds names, ds.length = 4 ∧ names.length = 4 ∧ merging.BuiltFrom ds names := by
  have hload : ofText "<S>::=<A>a|<B><C>\n\n<A>::=a|b|a\n <C> ::=<A>\n<A>::=b|" = .ok merging := by decide
  obtain ⟨hlines, ds, names, hsays, hbuilt⟩ := ofText_builds hload
  have hcount := congrArg List.length hbuilt.declared
  rw [List.length_range] at hcount
  exact ⟨hload, hlines, ds, names, hsays.length_eq.symm.trans (by decide), hcount.symm.trans (by decide), hbuilt⟩

end Grammar

end TopDown
