import TopDown.Proofs.Spelling

/-!
# Printing and reloading

The text form of a grammar gives the grammar again, up to renumbering, under conditions that say what a line can hold: the names
in front can be defined, those further on can be referred to, and nothing holds a line feed. One thing is lost even then, a
carriage return at the end of a last production, which is taken for a part of the line's end. Grammars that come from a text
meet the conditions.

Main statements: `ofText_render`, `ofText_render_eq_error`, `sameByName_reloaded_iff` and `reload_of_ofText`.
-/

namespace TopDown

open Text (isBlank trim)

/-- No two nonterminals have the same name in a table. -/
theorem Names.get?_inj {n : Names} {nt m : Nonterminal} {name : String} (hnt : n.get? nt = some name)
    (hm : n.get? m = some name) : nt = m := by
  have hpair := List.inj_on_of_nodup_map n.nodup (Table.mem_of_get?_eq_some hnt) (Table.mem_of_get?_eq_some hm) rfl
  exact congrArg Prod.fst hpair

/-- A last member that `dropFinal` changes is missed when a list without repetition is compared with what became of it. -/
theorem distinct_modifyLast_dropFinal_eq_iff {α : Type} [DecidableEq α] {a : α} {ls : List (List α)} (h : ls.Nodup) :
    distinct (ls.modifyLast (dropFinal a)) = ls ↔ ∀ l, ls.getLast? = some l → l.getLast? ≠ some a := by
  rcases List.eq_nil_or_concat' ls with rfl | ⟨init, last, rfl⟩
  · exact iff_of_true rfl nofun
  · rw [List.modifyLast_concat, List.getLast?_concat]
    constructor
    · rintro heq _ ⟨⟩ hlast
      have hmem : last ∈ init ++ [dropFinal a last] := by
        rw [← mem_distinct, heq]
        simp
      rcases List.mem_append.1 hmem with hmem | hmem
      · exact (List.nodup_append.1 h).2.2 last hmem last (by simp) rfl
      · exact dropFinal_ne_self hlast (List.mem_singleton.1 hmem).symm
    · intro hall
      rw [dropFinal_eq_self (hall last rfl), distinct_eq_self h]

namespace Definition

/-- What is written for a definition is not blank. -/
theorem trim_text_ne_nil (d : Definition) : trim d.text ≠ [] := by
  have hopen : ¬isBlank '<' = true := by decide
  exact fun hnil => hopen (Text.trim_eq_nil_iff.1 hnil '<' List.mem_cons_self)

/-- What is written for a definition is one line when its name and its atoms are. -/
theorem newline_not_mem_text {d : Definition} :
    '\n' ∉ d.text ↔ '\n' ∉ d.head.toList ∧ ∀ atoms ∈ d.alternatives, ∀ a ∈ atoms, '\n' ∉ a.text := by
  rw [← newline_not_mem_bodyText, text]
  simp

/-- A definition that was read from a line is written as one line. -/
theorem newline_not_mem_text_of_ofLine {line : List Char} {d : Definition} (h : ofLine line = .ok d) (hline : '\n' ∉ line) :
    '\n' ∉ d.text := by
  obtain ⟨-, before, after, rfl⟩ := exists_of_ofLine h
  simp only [List.mem_append, not_or] at hline
  obtain ⟨⟨⟨-, hhead⟩, -⟩, hbody⟩ := hline
  simpa [text] using ⟨by simpa using hhead, by simpa using hbody⟩

end Definition

namespace Grammar

/-! ## Lines of definitions -/

/-- A text of definitions is cut into the lines of the definitions, less a carriage return at the end of each. -/
theorem numberedLines_unlines {ds : List Definition} (hline : ∀ d ∈ ds, '\n' ∉ d.text)
    (halternatives : ∀ d ∈ ds, d.alternatives ≠ []) :
    numberedLines (String.ofList ((ds.map Definition.text).flatMap fun line => line ++ ['\n'])) =
      ((ds.map Definition.dropReturn).map Definition.text).zipIdx 1 := by
  have hlines : Text.lines ((ds.map Definition.text).flatMap fun line => line ++ ['\n']) =
      (ds.map Definition.dropReturn).map Definition.text := by
    rw [Text.lines_unlines (by simpa using hline), List.map_map, List.map_map]
    exact List.map_congr_left fun d hd => (Definition.text_dropReturn (halternatives d hd)).symm
  rw [numberedLines, String.toList_ofList, hlines, List.filter_eq_self]
  intro line hmem
  obtain ⟨d, -, htext⟩ := List.mem_map.1 (List.fst_mem_of_mem_zipIdx hmem)
  simp [← htext, d.trim_text_ne_nil]

/-- Lines that are each read as a definition are read as the definitions. -/
theorem mapM_readLine {ds : List Definition} (h : ∀ d ∈ ds, Definition.ofLine d.text = .ok d) (first : Nat) :
    ((ds.map Definition.text).zipIdx first).mapM readLine = .ok ds := by
  induction ds generalizing first with
  | nil => rfl
  | cons d ds ih =>
    obtain ⟨hd, hds⟩ := List.forall_mem_cons.1 h
    simp [List.mapM_cons, readLine, hd, ih hds, Except.mapError, bind, Except.bind, pure, Except.pure]

/-- Lines one of which has a fault, and others no other fault, are not read for that fault. -/
theorem mapM_readLine_eq_error {ds : List Definition} {fault : Fault}
    (h : ∀ d ∈ ds, Definition.ofLine d.text = .ok d ∨ Definition.ofLine d.text = .error fault) {d : Definition} (hd : d ∈ ds)
    (hfault : Definition.ofLine d.text = .error fault) (first : Nat) :
    ∃ number, ((ds.map Definition.text).zipIdx first).mapM readLine = .error (.atLine number fault) := by
  induction ds generalizing first with
  | nil => cases hd
  | cons e ds ih =>
    obtain ⟨he | he, hds⟩ := List.forall_mem_cons.1 h
    · rcases List.mem_cons.1 hd with rfl | hd
      · rw [he] at hfault
        cases hfault
      · obtain ⟨number, hnumber⟩ := ih hds hd (first + 1)
        refine ⟨number, ?_⟩
        simp [List.mapM_cons, readLine, he, hnumber, Except.mapError, bind, Except.bind]
    · refine ⟨first, ?_⟩
      simp [List.mapM_cons, readLine, he, Except.mapError, bind, Except.bind]

/-! ## What can be printed -/

/-- A grammar whose text form is made of lines that can be read, but for backslashes in names: it is well-formed, its start has a
production, every declared nonterminal has a name and is shown somewhere, and names and lines are such as can be read. -/
structure Printable (g : Grammar) : Prop where
  wellFormed : g.WellFormed
  start : g.productionsOf g.start ≠ []
  named : ∀ nt ∈ g.declared, ∃ name, g.names.get? nt = some name
  covered : ∀ nt ∈ g.declared, g.productionsOf nt = [] → ∃ k, ∃ p ∈ g.productionsOf k, .nonterminal nt ∈ p
  head : ∀ nt, g.productionsOf nt ≠ [] → IsHead (g.nameOf nt)
  mention : ∀ nt, ∀ p ∈ g.productionsOf nt, ∀ m, .nonterminal m ∈ p → IsName (g.nameOf m)
  line : ∀ nt, g.productionsOf nt ≠ [] → '\n' ∉ g.showLine nt

/-- A nonterminal is shown with a backslash in its name where a name is read that cannot hold one. -/
def MentionsEscape (g : Grammar) : Prop :=
  ∃ nt, ∃ p ∈ g.productionsOf nt, ∃ m, .nonterminal m ∈ p ∧ '\\' ∈ (g.nameOf m).toList

namespace Printable

variable {g : Grammar}

/-- The names of a grammar that can be printed tell its nonterminals apart. -/
theorem namesApart (hg : g.Printable) : g.NamesApart := by
  intro nt hnt m hm h
  obtain ⟨name, hname⟩ := hg.named nt hnt
  obtain ⟨name', hname'⟩ := hg.named m hm
  rw [nameOf_eq hname, nameOf_eq hname'] at h
  exact Names.get?_inj hname (h ▸ hname')

/-- What is referred to in the text form of a grammar is what is mentioned in the grammar. -/
theorem exists_reference_iff {name : String} : (∃ d ∈ g.definitions, name ∈ d.references) ↔
    ∃ nt, ∃ p ∈ g.productionsOf nt, ∃ m, .nonterminal m ∈ p ∧ g.nameOf m = name := by
  simp only [Definition.mem_references]
  constructor
  · rintro ⟨d, hd, atoms, hatoms, hname⟩
    obtain ⟨nt, -, rfl⟩ := List.mem_map.1 hd
    obtain ⟨p, hp, rfl⟩ := List.mem_map.1 hatoms
    exact ⟨nt, p, hp, reference_mem_map_spell.1 hname⟩
  · rintro ⟨nt, p, hp, hname⟩
    exact ⟨g.definitionOf nt, List.mem_map.2 ⟨nt, mem_shown.2 (List.ne_nil_of_mem hp), rfl⟩, p.map g.spell,
      List.mem_map.2 ⟨p, hp, rfl⟩, reference_mem_map_spell.2 hname⟩

/-- The lines of a grammar that can be printed can be read, but for backslashes in references, and each is one line. -/
theorem definition (hg : g.Printable) {d : Definition} (hd : d ∈ g.definitions) : d.Bracketed ∧ '\n' ∉ d.text := by
  have hreference : ∀ name ∈ d.references, IsName name := by
    intro name hname
    obtain ⟨nt, p, hp, m, hm, rfl⟩ := exists_reference_iff.1 ⟨d, hd, hname⟩
    exact hg.mention nt p hp m hm
  obtain ⟨nt, hnt, rfl⟩ := List.mem_map.1 hd
  have hne := mem_shown.1 hnt
  exact ⟨⟨hg.head nt hne, by simpa [definitionOf, spelled] using hne, hreference⟩, g.text_definitionOf nt ▸ hg.line nt hne⟩

/-- The names in the text form are the names of what is declared. -/
theorem mem_namesOf_definitions_iff (hg : g.Printable) {name : String} :
    name ∈ namesOf g.definitions ↔ ∃ nt ∈ g.declared, g.nameOf nt = name := by
  rw [mem_namesOf]
  constructor
  · rintro ⟨d, hd, hname⟩
    rcases List.mem_cons.1 hname with rfl | hname
    · obtain ⟨nt, hnt, rfl⟩ := List.mem_map.1 hd
      exact ⟨nt, declared_of_productionsOf_ne_nil (mem_shown.1 hnt), rfl⟩
    · obtain ⟨nt, p, hp, m, hm, hname⟩ := exists_reference_iff.1 ⟨d, hd, hname⟩
      exact ⟨m, hg.wellFormed.mention nt p hp m hm, hname⟩
  · rintro ⟨nt, hnt, rfl⟩
    by_cases hne : g.productionsOf nt = []
    · obtain ⟨k, p, hp, hm⟩ := hg.covered nt hnt hne
      obtain ⟨d, hd, hname⟩ := exists_reference_iff.2 ⟨k, p, hp, nt, hm, rfl⟩
      exact ⟨d, hd, List.mem_cons_of_mem _ hname⟩
    · exact ⟨g.definitionOf nt, List.mem_map.2 ⟨nt, mem_shown.2 hne, rfl⟩, List.mem_cons_self⟩

/-- The name of the start comes first. -/
theorem namesOf_definitions_zero (hg : g.Printable) : (namesOf g.definitions)[0]? = some (g.nameOf g.start) := by
  rw [definitions, shown, List.filter_cons_of_pos (by simpa using hg.start), List.map_cons, namesOf, List.flatMap_cons, definitionOf,
    Definition.names, List.cons_append, distinct]
  rfl

/-! ## Reloading -/

/-- The text form of a grammar is read line by line, as its definitions less a carriage return at the end of each. -/
theorem ofText_render_eq (hg : g.Printable) : ofText g.render =
    (((g.definitions.map Definition.dropReturn).map Definition.text).zipIdx 1).mapM readLine >>= fun ds =>
      if ds.isEmpty then .error .emptyGrammar else .ok (ofDefinitions ds) := by
  rw [ofText, render_eq, numberedLines_unlines (fun d hd => (hg.definition hd).2)
    fun d hd => (hg.definition hd).1.alternatives]

/-- Where names can be referred to, the text form of a grammar gives the grammar of its definitions. -/
theorem ofText_render (hg : g.Printable) (hescape : ¬g.MentionsEscape) :
    ofText g.render = .ok (ofDefinitions (g.definitions.map Definition.dropReturn)) := by
  have hread : ∀ d ∈ g.definitions.map Definition.dropReturn, Definition.ofLine d.text = .ok d := by
    intro d hd
    obtain ⟨e, he, rfl⟩ := List.mem_map.1 hd
    have hlegal : e.Legal := by
      refine ⟨(hg.definition he).1, fun name hname hmem => hescape ?_⟩
      obtain ⟨nt, p, hp, m, hm, rfl⟩ := exists_reference_iff.1 ⟨e, he, hname⟩
      exact ⟨nt, p, hp, m, hm, hmem⟩
    exact Definition.ofLine_text hlegal.dropReturn
  have hne : g.definitions ≠ [] := List.ne_nil_of_mem (List.mem_map.2 ⟨g.start, mem_shown.2 hg.start, rfl⟩)
  rw [hg.ofText_render_eq, mapM_readLine hread]
  simp [bind, Except.bind, hne]

/-- Where a name is mentioned that holds a backslash, the text form of a grammar is not read for that. -/
theorem ofText_render_eq_error (hg : g.Printable) (hescape : g.MentionsEscape) :
    ∃ number, ofText g.render = .error (.atLine number .escapeInName) := by
  have hread : ∀ d ∈ g.definitions.map Definition.dropReturn,
      Definition.ofLine d.text = .ok d ∨ Definition.ofLine d.text = .error .escapeInName := by
    intro d hd
    obtain ⟨e, he, rfl⟩ := List.mem_map.1 hd
    have hbracketed := (hg.definition he).1.dropReturn
    by_cases hbad : ∃ name ∈ e.dropReturn.references, '\\' ∈ name.toList
    · obtain ⟨name, hname, hmem⟩ := hbad
      exact Or.inr (Definition.ofLine_text_eq_error hbracketed hname hmem)
    · exact Or.inl (Definition.ofLine_text ⟨hbracketed, fun name hname hmem => hbad ⟨name, hname, hmem⟩⟩)
  obtain ⟨nt, p, hp, m, hm, hmem⟩ := hescape
  obtain ⟨d, hd, hname⟩ := exists_reference_iff.2 ⟨nt, p, hp, m, hm, rfl⟩
  have hfault : Definition.ofLine d.dropReturn.text = .error .escapeInName :=
    Definition.ofLine_text_eq_error (hg.definition hd).1.dropReturn (Definition.references_dropReturn d ▸ hname) hmem
  obtain ⟨number, hnumber⟩ := mapM_readLine_eq_error hread (List.mem_map.2 ⟨d, hd, rfl⟩) hfault 1
  exact ⟨number, by rw [hg.ofText_render_eq, hnumber]; rfl⟩

/-- After reloading, the productions of a name are those that its line gives. -/
theorem spelled_reloaded (hg : g.Printable) {nt m : Nonterminal} (hnt : nt ∈ g.declared)
    (hm : (namesOf (g.definitions.map Definition.dropReturn))[m]? = some (g.nameOf nt)) :
    (ofDefinitions (g.definitions.map Definition.dropReturn)).spelled m =
      distinct ((g.spelled nt).modifyLast (dropFinal (.terminal '\r'))) := by
  have hfilter : ((g.definitions.map Definition.dropReturn).filter fun d => d.head = g.nameOf nt) =
      ((g.shown.filter fun k => k = nt).map g.definitionOf).map Definition.dropReturn := by
    rw [definitions, List.filter_map, List.filter_map]
    refine congrArg _ (congrArg _ (List.filter_congr fun k hk => ?_))
    have hdeclared := declared_of_productionsOf_ne_nil (mem_shown.1 hk)
    have hiff : g.nameOf k = g.nameOf nt ↔ k = nt := ⟨hg.namesApart k hdeclared nt hnt, fun h => h ▸ rfl⟩
    exact decide_eq_decide.2 hiff
  rw [spelled_ofDefinitions hm, hfilter]
  by_cases hshown : nt ∈ g.shown
  · rw [List.filter_eq, List.count_eq_one_of_mem g.nodup_shown hshown]
    simp [Definition.dropReturn, definitionOf]
  · have hnil : g.productionsOf nt = [] := Classical.byContradiction fun hne => hshown (mem_shown.2 hne)
    have hnone : (g.shown.filter fun k => k = nt) = [] := by
      refine List.filter_eq_nil_iff.2 fun k hk he => hshown ?_
      obtain rfl : k = nt := by simpa using he
      exact hk
    rw [hnone, spelled, hnil]
    rfl

/-- What the text form of a grammar gives is the same by name, unless a last production ends with a carriage return. -/
theorem sameByName_reloaded_iff (hg : g.Printable) :
    SameByName g (ofDefinitions (g.definitions.map Definition.dropReturn)) ↔
      ∀ nt p, (g.productionsOf nt).getLast? = some p → p.getLast? ≠ some (.terminal '\r') := by
  have hnames : namesOf (g.definitions.map Definition.dropReturn) = namesOf g.definitions := by
    rw [namesOf, namesOf, List.flatMap_map]
    exact congrArg _ (List.flatMap_congr fun d _ => d.names_dropReturn)
  have hspelled : ∀ nt, (distinct ((g.spelled nt).modifyLast (dropFinal (.terminal '\r'))) = g.spelled nt) ↔
      ∀ p, (g.productionsOf nt).getLast? = some p → p.getLast? ≠ some (.terminal '\r') := by
    intro nt
    rw [distinct_modifyLast_dropFinal_eq_iff (nodup_spelled hg.namesApart hg.wellFormed nt), spelled, List.getLast?_map]
    simp [List.getLast?_map, spell_eq_terminal_iff]
  constructor
  · intro h nt p hlast
    have hnt : nt ∈ g.declared := declared_of_mem_productionsOf (List.mem_of_getLast? hlast)
    obtain ⟨m, hm, hname⟩ := (h.declared (g.nameOf nt)).1 ⟨nt, hnt, rfl⟩
    obtain ⟨name, hnumber⟩ := mem_declared_ofDefinitions.1 hm
    rw [nameOf_ofDefinitions hnumber] at hname
    have hsame := h.productions nt hnt m hm (by rw [nameOf_ofDefinitions hnumber, hname])
    rw [hg.spelled_reloaded hnt (hname ▸ hnumber)] at hsame
    exact (hspelled nt).1 hsame.symm p hlast
  · intro h
    refine ⟨⟨hg.namesApart, namesApart_ofDefinitions _⟩, ?_, fun name => ?_, fun nt hnt m hm hname => ?_⟩
    · exact (nameOf_ofDefinitions (hnames ▸ hg.namesOf_definitions_zero)).symm
    · rw [exists_declared_ofDefinitions_iff, hnames, hg.mem_namesOf_definitions_iff]
    · obtain ⟨name, hnumber⟩ := mem_declared_ofDefinitions.1 hm
      rw [nameOf_ofDefinitions hnumber] at hname
      rw [hg.spelled_reloaded hnt (hname ▸ hnumber), (hspelled nt).2 (h nt)]

end Printable

/-! ## Grammars from text -/

/-- By name, a production of the grammar of some definitions is an alternative of a definition of its nonterminal. -/
theorem exists_of_mem_spelled {ds : List Definition} {nt : Nonterminal} {atoms : List Atom}
    (h : atoms ∈ (ofDefinitions ds).spelled nt) :
    ∃ d ∈ ds, (ofDefinitions ds).nameOf nt = d.head ∧ atoms ∈ d.alternatives := by
  obtain ⟨p, hp, -⟩ := List.mem_map.1 h
  obtain ⟨name, hname⟩ := mem_declared_ofDefinitions.1 (declared_of_mem_productionsOf hp)
  rw [spelled_ofDefinitions hname, mem_distinct, List.mem_flatMap] at h
  obtain ⟨d, hd, hatoms⟩ := h
  obtain ⟨hd, hhead⟩ := List.mem_filter.1 hd
  exact ⟨d, hd, (nameOf_ofDefinitions hname).trans (of_decide_eq_true hhead).symm, hatoms⟩

/-- An alternative of a definition is, by name, a production of the number of its head. -/
theorem mem_spelled_ofDefinitions {ds : List Definition} {d : Definition} (hd : d ∈ ds) {atoms : List Atom}
    (hatoms : atoms ∈ d.alternatives) : atoms ∈ (ofDefinitions ds).spelled ((namesOf ds).idxOf d.head) := by
  have hname : d.head ∈ namesOf ds := mem_namesOf.2 ⟨d, hd, List.mem_cons_self⟩
  rw [spelled_ofDefinitions (List.getElem?_idxOf hname), mem_distinct, List.mem_flatMap]
  exact ⟨d, List.mem_filter.2 ⟨hd, by simp⟩, hatoms⟩

/-- The head of a definition is the name of a nonterminal with a production. -/
theorem productionsOf_ofDefinitions_ne_nil {ds : List Definition} {d : Definition} (hd : d ∈ ds) (h : d.Legal) :
    (ofDefinitions ds).productionsOf ((namesOf ds).idxOf d.head) ≠ [] := by
  obtain ⟨atoms, hatoms⟩ := List.exists_mem_of_ne_nil _ h.alternatives
  obtain ⟨p, hp, -⟩ := List.mem_map.1 (mem_spelled_ofDefinitions hd hatoms)
  exact List.ne_nil_of_mem hp

/-- The grammar of some definitions can be printed, if there are any and each was read from a line. -/
theorem printable_ofDefinitions {ds : List Definition} (hne : ds ≠ []) (hlegal : ∀ d ∈ ds, d.Legal)
    (hline : ∀ d ∈ ds, '\n' ∉ d.text) : (ofDefinitions ds).Printable := by
  have hwf := wellFormed_ofDefinitions hne
  have hhead : ∀ nt, (ofDefinitions ds).productionsOf nt ≠ [] → ∃ d ∈ ds, (ofDefinitions ds).nameOf nt = d.head := by
    intro nt hnt
    obtain ⟨p, hp⟩ := List.exists_mem_of_ne_nil _ hnt
    obtain ⟨d, hd, hname, -⟩ := exists_of_mem_spelled (List.mem_map.2 ⟨p, hp, rfl⟩)
    exact ⟨d, hd, hname⟩
  refine ⟨hwf, ?_, fun nt hnt => ?_, fun nt hnt hnil => ?_, fun nt hnt => ?_, fun nt p hp m hm => ?_, fun nt hnt => ?_⟩
  · obtain ⟨d, rest, rfl⟩ := List.exists_cons_of_ne_nil hne
    have hfirst : (namesOf (d :: rest)).idxOf d.head = (ofDefinitions (d :: rest)).start := by
      rw [namesOf, List.flatMap_cons, Definition.names, List.cons_append, distinct, List.idxOf_cons_self]
      rfl
    exact hfirst ▸ productionsOf_ofDefinitions_ne_nil List.mem_cons_self (hlegal d List.mem_cons_self)
  · obtain ⟨name, hname⟩ := mem_declared_ofDefinitions.1 hnt
    exact ⟨name, names_ofDefinitions hname⟩
  · obtain ⟨d, hd, hname⟩ := mem_namesOf.1 (exists_declared_ofDefinitions_iff.1 ⟨nt, hnt, rfl⟩)
    rcases List.mem_cons.1 hname with hname | hname
    · have hmem : d.head ∈ namesOf ds := mem_namesOf.2 ⟨d, hd, List.mem_cons_self⟩
      have hidx := namesApart_ofDefinitions ds nt hnt _ (idxOf_mem_declared hmem) (hname.trans (nameOf_idxOf hmem).symm)
      exact absurd (hidx ▸ hnil) (productionsOf_ofDefinitions_ne_nil hd (hlegal d hd))
    · obtain ⟨atoms, hatoms, hreference⟩ := Definition.mem_references.1 hname
      obtain ⟨p, hp, rfl⟩ := List.mem_map.1 (mem_spelled_ofDefinitions hd hatoms)
      obtain ⟨m, hm, hsame⟩ := reference_mem_map_spell.1 hreference
      have hdeclared := hwf.mention _ p hp m hm
      exact ⟨_, p, hp, namesApart_ofDefinitions ds m hdeclared nt hnt hsame ▸ hm⟩
  · obtain ⟨d, hd, hname⟩ := hhead nt hnt
    exact hname ▸ (hlegal d hd).head
  · obtain ⟨d, hd, -, hatoms⟩ := exists_of_mem_spelled (List.mem_map.2 ⟨p, hp, rfl⟩)
    exact (hlegal d hd).reference _ (Definition.mem_references.2 ⟨_, hatoms, reference_mem_map_spell.2 ⟨m, hm, rfl⟩⟩)
  · rw [← text_definitionOf, Definition.newline_not_mem_text]
    obtain ⟨d, hd, hname⟩ := hhead nt hnt
    refine ⟨?_, fun atoms hatoms => ?_⟩
    · rw [definitionOf, hname]
      exact (Definition.newline_not_mem_text.1 (hline d hd)).1
    · obtain ⟨e, he, -, hmem⟩ := exists_of_mem_spelled hatoms
      exact (Definition.newline_not_mem_text.1 (hline e he)).2 atoms hmem

/-- What the grammar of some definitions mentions is referred to, so its name holds no backslash. -/
theorem not_mentionsEscape_ofDefinitions {ds : List Definition} (hlegal : ∀ d ∈ ds, d.Legal) :
    ¬(ofDefinitions ds).MentionsEscape := by
  rintro ⟨nt, p, hp, m, hm, hescape⟩
  obtain ⟨d, hd, -, hatoms⟩ := exists_of_mem_spelled (List.mem_map.2 ⟨p, hp, rfl⟩)
  refine (hlegal d hd).escape _ (Definition.mem_references.2 ⟨_, hatoms, ?_⟩) hescape
  exact reference_mem_map_spell.2 ⟨m, hm, rfl⟩

/-- A grammar from a text can be printed, and mentions no name with a backslash. -/
theorem printable_of_ofText {text : String} {g : Grammar} (h : ofText text = .ok g) : g.Printable ∧ ¬g.MentionsEscape := by
  obtain ⟨ds, hne, rfl, hlines⟩ := exists_definitions_of_ofText h
  have hlegal : ∀ d ∈ ds, d.Legal := by
    intro d hd
    obtain ⟨line, -, hline⟩ := hlines d hd
    exact (Definition.exists_of_ofLine hline).1
  have honeLine : ∀ d ∈ ds, '\n' ∉ d.text := by
    intro d hd
    obtain ⟨line, hmem, hline⟩ := hlines d hd
    exact Definition.newline_not_mem_text_of_ofLine hline (Text.newline_not_mem_of_mem_lines hmem)
  exact ⟨printable_ofDefinitions hne hlegal honeLine, not_mentionsEscape_ofDefinitions hlegal⟩

/-- A grammar from a text is always given again by its text form, up to renumbering, except that a carriage return at the end of
the last production of a nonterminal is lost. -/
theorem reload_of_ofText {text : String} {g : Grammar} (h : ofText text = .ok g) :
    ∃ g', ofText g.render = .ok g' ∧
      (SameByName g g' ↔ ∀ nt p, (g.productionsOf nt).getLast? = some p → p.getLast? ≠ some (.terminal '\r')) := by
  obtain ⟨hg, hescape⟩ := printable_of_ofText h
  exact ⟨_, hg.ofText_render hescape, hg.sameByName_reloaded_iff⟩

/-- A grammar with an empty production, an escaped character, a nonterminal without a production, and a carriage return at the
end of a line. -/
def returning : Grammar :=
  ⟨0, .ofList [(0, [[], [.terminal 'a', .nonterminal 1, .terminal '|', .terminal '\r']]), (1, [])], .ofList [(0, "S"), (1, "T")]⟩

/-- The carriage return is lost when the grammar is printed and reloaded. -/
theorem reload_of_ofText_returning : ofText "<S>::=|a<T>\\|\r\r\n" = .ok returning ∧
    ∃ g', ofText returning.render = .ok g' ∧ ¬SameByName returning g' := by
  have hg : ofText "<S>::=|a<T>\\|\r\r\n" = .ok returning := by decide
  obtain ⟨g', hg', hsame⟩ := reload_of_ofText hg
  refine ⟨hg, g', hg', fun h => hsame.1 h 0 [.terminal 'a', .nonterminal 1, .terminal '|', .terminal '\r'] ?_ rfl⟩
  decide

end Grammar

end TopDown
