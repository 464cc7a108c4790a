import TopDown.Proofs.Fresh
import TopDown.Proofs.Normalization
import TopDown.Proofs.Reloading

/-!
# Names and characters through normalization

No stage of a normalization invents a character, and the names that it invents are those of nonterminals with productions,
followed by apostrophes. So whatever holds of the names of all nonterminals with productions, and goes on holding when an
apostrophe is added, holds of the names in the normalized grammar. The names that can be defined are such names. Those that can
be referred to are not all names that can be defined: a backslash may stand in a name before `::=` and not after it. A nonterminal
that a stage introduces is mentioned under a name that was only defined before, so a normalized grammar can be reloaded as long
as no backslash gets into an alternative in this way, and not otherwise.

Main statements: `Labelled.normalize` and `reload_of_normalize`.
-/

namespace TopDown

namespace Grammar

/-- Every nonterminal with a production has a name with the property `Q`, and every character of a production has the
property `T`. -/
structure Labelled (Q : String → Prop) (T : Char → Prop) (g : Grammar) : Prop where
  head : ∀ nt, g.productionsOf nt ≠ [] → ∃ name, g.names.get? nt = some name ∧ Q name
  terminal : ∀ nt, ∀ p ∈ g.productionsOf nt, ∀ c, .terminal c ∈ p → T c

namespace Labelled

variable {Q : String → Prop} {T : Char → Prop} {g h : Grammar}

/-- The name by which a nonterminal with a production is shown has the property of names. -/
theorem nameOf (hg : Labelled Q T g) {nt : Nonterminal} (hne : g.productionsOf nt ≠ []) : Q (g.nameOf nt) := by
  obtain ⟨name, hname, hq⟩ := hg.head nt hne
  rwa [nameOf_eq hname]

/-! ## Edits -/

/-- A grammar that has the same names, and productions only where the other has some and of its symbols only, is as well
labelled. -/
theorem of_mem (hg : Labelled Q T g) (hnames : h.names = g.names)
    (hp : ∀ nt, ∀ p ∈ h.productionsOf nt, g.productionsOf nt ≠ [] ∧
      ∀ c, .terminal c ∈ p → ∃ k, ∃ q ∈ g.productionsOf k, .terminal c ∈ q) : Labelled Q T h := by
  refine ⟨fun nt hne => ?_, fun nt p hmem c hc => ?_⟩
  · obtain ⟨p, hmem⟩ := List.exists_mem_of_ne_nil _ hne
    exact hnames ▸ hg.head nt (hp nt p hmem).1
  · obtain ⟨k, q, hq, hcq⟩ := (hp nt p hmem).2 c hc
    exact hg.terminal k q hq c hcq

/-- A nonterminal with a production can be given others. -/
theorem setProductions (hg : Labelled Q T g) {nt : Nonterminal} {ps : List Production}
    (hnt : ps ≠ [] → g.productionsOf nt ≠ []) (hps : ∀ p ∈ ps, ∀ c, .terminal c ∈ p → T c) :
    Labelled Q T (g.setProductions nt ps) := by
  refine ⟨fun m hne => ?_, fun m p hp c hc => ?_⟩
  · rw [productionsOf_setProductions] at hne
    split at hne
    · rename_i hm
      obtain ⟨p, hp⟩ := List.exists_mem_of_ne_nil _ hne
      exact hg.head m (hm ▸ hnt (List.ne_nil_of_mem (mem_distinct.1 hp)))
    · exact hg.head m hne
  · rw [productionsOf_setProductions] at hp
    split at hp
    · exact hps p (mem_distinct.1 hp) c hc
    · exact hg.terminal m p hp c hc

/-- A fresh nonterminal can be introduced for one with a production, if the property of names bears apostrophes. -/
theorem addFresh (hg : Labelled Q T g) (hpush : ∀ name, Q name → Q (name.push '\'')) {origin : Nonterminal}
    {ps : List Production} (horigin : g.productionsOf origin ≠ []) (hps : ∀ p ∈ ps, ∀ c, .terminal c ∈ p → T c) :
    Labelled Q T (g.addFresh origin ps) := by
  refine ⟨fun m hne => ?_, fun m p hp c hc => ?_⟩
  · rw [names_addFresh]
    rw [productionsOf_addFresh] at hne
    split
    · exact ⟨_, rfl, Names.unused_induction hpush (hpush _ (hg.nameOf horigin))⟩
    · rename_i hm
      rw [if_neg hm] at hne
      exact hg.head m hne
  · rw [productionsOf_addFresh] at hp
    split at hp
    · exact hps p (mem_distinct.1 hp) c hc
    · exact hg.terminal m p hp c hc

/-! ## Stages without fresh nonterminals -/

/-- Removing empty productions keeps labels. -/
theorem withoutEmpty (hg : Labelled Q T g) : Labelled Q T g.withoutEmpty := by
  refine hg.of_mem rfl fun nt q hq => ?_
  obtain ⟨-, p, hp, hv⟩ := mem_productionsOf_withoutEmpty.1 hq
  exact ⟨List.ne_nil_of_mem hp, fun c hc => ⟨nt, p, hp, Production.mem_of_mem_variants hv _ hc⟩⟩

/-- Removing unit productions keeps labels: what reaches another nonterminal by unit productions has one. -/
theorem withoutUnits (hg : Labelled Q T g) : Labelled Q T g.withoutUnits := by
  refine hg.of_mem rfl fun nt p hp => ?_
  obtain ⟨-, m, hchain, hm, -⟩ := mem_productionsOf_withoutUnits.1 hp
  refine ⟨?_, fun c hc => ⟨m, p, hm, hc⟩⟩
  rcases hchain.cases_head with rfl | ⟨k, hk, -⟩
  · exact List.ne_nil_of_mem hm
  · exact List.ne_nil_of_mem (mem_filterMap_unitTarget?.1 hk)

/-- Trimming keeps labels. -/
theorem trims (hg : Labelled Q T g) (ht : Trims g h) : Labelled Q T h := by
  refine hg.of_mem (by rw [ht.1]; rfl) fun nt p hp => ?_
  have hp' := ht.mem_of_mem hp
  exact ⟨List.ne_nil_of_mem hp', fun c hc => ⟨nt, p, hp', hc⟩⟩

/-- The grammar of the empty word is labelled if the start had a production. -/
theorem onlyEmptyWord (hg : Labelled Q T g) (hstart : g.productionsOf g.start ≠ []) : Labelled Q T g.onlyEmptyWord := by
  refine hg.of_mem rfl fun nt p hp => ?_
  obtain ⟨rfl, rfl⟩ := mem_productionsOf_onlyEmptyWord.1 hp
  exact ⟨hstart, fun c hc => nomatch hc⟩

/-- Bringing the empty word back keeps labels if the start has a production. -/
theorem withEmptyWord (hg : Labelled Q T g) (hpush : ∀ name, Q name → Q (name.push '\''))
    (hstart : g.productionsOf g.start ≠ []) : Labelled Q T g.withEmptyWord := by
  have hfresh : Labelled Q T (g.addFresh g.start [[.nonterminal g.start], []]) :=
    hg.addFresh hpush hstart (by simp)
  exact ⟨hfresh.head, hfresh.terminal⟩

/-- Substitution keeps labels. -/
theorem substituted (hg : Labelled Q T g) (earlier : List Nonterminal) (nt : Nonterminal) :
    Labelled Q T (g.substituted earlier nt) := by
  refine hg.setProductions (fun hne hnil => hne ?_) fun q hq c hc => ?_
  · rw [hnil, foldl_substituteLeading_nil]
  · obtain ⟨p, hcp, hp | ⟨e, hp⟩⟩ := exists_mem_of_foldl_substituteLeading hq hc
    · exact hg.terminal nt p hp c hcp
    · exact hg.terminal e p hp c hcp

/-! ## Stages with fresh nonterminals -/

/-- A tail adds no character. -/
theorem terminal_withTail {tail : Nonterminal} {ps : List Production} (hps : ∀ p ∈ ps, ∀ c, .terminal c ∈ p → T c) :
    ∀ p ∈ withTail tail ps, ∀ c, .terminal c ∈ p → T c := by
  intro q hq c hc
  rcases Production.mem_withTail.1 hq with hq | ⟨p, hp, rfl⟩
  · exact hps q hq c hc
  · exact hps p hp c (by simpa using hc)

/-- Removing direct recursion keeps labels. -/
theorem removeDirect {e : Elimination} (hg : Labelled Q T e.grammar) (hpush : ∀ name, Q name → Q (name.push '\''))
    (nt : Nonterminal) : Labelled Q T (e.removeDirect nt).grammar := by
  have hothers : ∀ p ∈ e.grammar.nonrecursiveOf nt, ∀ c, .terminal c ∈ p → T c := fun p hp =>
    hg.terminal nt p (mem_nonrecursiveOf.1 hp).1
  unfold Elimination.removeDirect
  by_cases ht : e.grammar.recursiveTailsOf nt = []
  · simp only [ht, List.isEmpty_nil, if_pos]
    refine hg.setProductions (fun hne => ?_) hothers
    obtain ⟨p, hp⟩ := List.exists_mem_of_ne_nil _ hne
    exact List.ne_nil_of_mem (mem_nonrecursiveOf.1 hp).1
  · simp only [List.isEmpty_iff, if_neg ht]
    have htails : ∀ t ∈ e.grammar.recursiveTailsOf nt, ∀ c, .terminal c ∈ t → T c := fun t ht c hc =>
      hg.terminal nt _ (mem_recursiveTailsOf.1 ht).1 c (List.mem_cons_of_mem _ hc)
    obtain ⟨t, htm⟩ := List.exists_mem_of_ne_nil _ ht
    have hnt := List.ne_nil_of_mem (mem_recursiveTailsOf.1 htm).1
    have hfresh : Labelled Q T (e.grammar.addFresh nt (withTail e.grammar.freshNonterminal (e.grammar.recursiveTailsOf nt))) :=
      hg.addFresh hpush hnt (terminal_withTail htails)
    refine hfresh.setProductions (fun _ => ?_) (terminal_withTail hothers)
    rwa [productionsOf_addFresh_of_ne_nil hnt]

/-- An elimination keeps labels. -/
theorem run {e : Elimination} (hg : Labelled Q T e.grammar) (hpush : ∀ name, Q name → Q (name.push '\''))
    (earlier nts : List Nonterminal) : Labelled Q T (e.run earlier nts).grammar := by
  induction nts generalizing e earlier with
  | nil => exact hg
  | cons nt nts ih =>
    have hsub : Labelled Q T (Elimination.mk (e.grammar.substituted earlier nt) e.introduced).grammar := hg.substituted earlier nt
    exact ih (hsub.removeDirect hpush nt) (earlier ++ [nt])

/-- Placing parts of a nonterminal's productions keeps labels. -/
theorem place {s : Factoring} (hg : Labelled Q T s.grammar) (hpush : ∀ name, Q name → Q (name.push '\'')) {nt : Nonterminal}
    (hnt : s.grammar.productionsOf nt ≠ []) {parts : List Part}
    (hparts : ∀ stem remainders, .shared stem remainders ∈ parts → ∀ r ∈ remainders, ∀ c, .terminal c ∈ r → T c) :
    Labelled Q T (Factoring.place nt parts s).1.grammar := by
  induction parts generalizing s with
  | nil => exact hg
  | cons part parts ih =>
    have hrest : ∀ stem remainders, .shared stem remainders ∈ parts → ∀ r ∈ remainders, ∀ c, .terminal c ∈ r → T c :=
      fun stem remainders hmem => hparts stem remainders (List.mem_cons_of_mem part hmem)
    cases part with
    | alone p => exact ih hg hnt hrest
    | shared stem remainders =>
      have hfresh : Labelled Q T (s.introduce nt remainders).grammar :=
        hg.addFresh hpush hnt (hparts stem remainders List.mem_cons_self)
      refine ih hfresh ?_ hrest
      rwa [Factoring.introduce, productionsOf_addFresh_of_ne_nil hnt]

/-- Factoring one nonterminal keeps labels. -/
theorem take {s : Factoring} (hg : Labelled Q T s.grammar) (hpush : ∀ name, Q name → Q (name.push '\'')) (nt : Nonterminal) :
    Labelled Q T (s.take nt).grammar := by
  by_cases hnt : s.grammar.productionsOf nt = []
  · have htake : (s.take nt).grammar = s.grammar.setProductions nt [] := by
      rw [Factoring.take, hnt]
      rfl
    rw [htake]
    exact hg.setProductions (absurd rfl) (by simp)
  · have hplaced := Factoring.placed_place nt (Part.ofProductions (s.grammar.productionsOf nt)) s
    have hshared : ∀ stem remainders, .shared stem remainders ∈ Part.ofProductions (s.grammar.productionsOf nt) →
        ∀ r ∈ remainders, ∀ c, .terminal c ∈ stem ++ r → T c := fun stem remainders hs r hr =>
      hg.terminal nt _ ((Part.mem_of_shared_mem hs).2 r hr)
    refine (hg.place hpush hnt fun stem remainders hs r hr c hc =>
      hshared stem remainders hs r hr c (List.mem_append_right stem hc)).setProductions (fun _ => ?_) fun q hq c hc => ?_
    · rwa [hplaced.kept nt (le_maxNonterminal_of_declared (declared_of_productionsOf_ne_nil hnt))]
    · rcases hplaced.placed q hq with ha | ⟨stem, remainders, fresh, hs, rfl, -, -⟩
      · exact hg.terminal nt q (Part.mem_of_alone_mem ha) c hc
      · obtain ⟨r, hr⟩ := List.exists_mem_of_ne_nil remainders (Part.mem_of_shared_mem hs).1
        exact hshared stem remainders hs r hr c (List.mem_append_left r (by simpa using hc))

/-- Factoring keeps labels. -/
theorem factoringRun {s : Factoring} (hg : Labelled Q T s.grammar) (hpush : ∀ name, Q name → Q (name.push '\''))
    (fuel : Nat) : Labelled Q T (Factoring.run fuel s).grammar := by
  induction fuel generalizing s with
  | zero => exact hg
  | succ fuel ih =>
    cases hpending : s.pending with
    | nil =>
      rw [Factoring.run, hpending]
      exact hg
    | cons nt rest =>
      rw [Factoring.run, hpending]
      have hrest : Labelled Q T ({ s with pending := rest } : Factoring).grammar := hg
      exact ih (hrest.take hpush nt)

end Labelled

/-! ## The whole of it -/

/-- A nonterminal that generates a word has a production. -/
theorem productionsOf_ne_nil_of_mem_words {g : Grammar} {nt : Nonterminal} {word : List Char} (hw : word ∈ g.words nt) :
    g.productionsOf nt ≠ [] := by
  obtain ⟨p, hp, -⟩ := mem_words_iff.1 hw
  exact List.ne_nil_of_mem hp

/-- The removal of left recursion keeps labels. -/
theorem Labelled.descending {Q : String → Prop} {T : Char → Prop} {g h : Grammar} (hg : Labelled Q T g)
    (hpush : ∀ name, Q name → Q (name.push '\'')) (hh : g.descending = .ok h) : Labelled Q T h := by
  rcases descending_cases hh with ⟨-, hnil, rfl⟩ | ⟨clean, result, ht, hresult, rfl⟩
  · exact hg.onlyEmptyWord (productionsOf_ne_nil_of_mem_words (language_iff_mem_words.1 (startNullable_iff.1 hnil)))
  · obtain ⟨word, hword⟩ := mem_productive_iff.1 (ht.useful ht.wellFormed.start).1
    have hlanguage := (language_of_withoutLeftRecursion hresult).2 (language_iff_mem_words.2 hword)
    obtain ⟨-, rfl⟩ := withoutLeftRecursion_eq_ok_iff.1 hresult
    have hlabelled := Labelled.run (e := ⟨clean, []⟩) (hg.withoutEmpty.withoutUnits.trims ht) hpush [] clean.distanceOrder
    split
    · exact hlabelled.withEmptyWord hpush (productionsOf_ne_nil_of_mem_words (language_iff_mem_words.1 hlanguage))
    · exact hlabelled

/-- A normalization keeps labels. -/
theorem Labelled.normalize {Q : String → Prop} {T : Char → Prop} {g : Grammar} (hg : Labelled Q T g)
    (hpush : ∀ name, Q name → Q (name.push '\'')) {n : Normalized} (hn : g.normalize = .ok n) : Labelled Q T n.grammar := by
  obtain ⟨-, h, hfollow, ht⟩ := exists_follow_of_normalize hn
  refine Labelled.trims ?_ ht
  cases hroute : n.route with
  | leftRecursionRemoval =>
    rw [hroute] at hfollow
    exact hg.descending hpush hfollow
  | leftFactoring =>
    rw [hroute] at hfollow
    cases hfollow
    exact Labelled.factoringRun (s := ⟨g, g.declared, 0⟩) hg hpush g.extent

/-! ## What it means for the text form -/

/-- A name that can be defined on one line. -/
def IsHeadLine (name : String) : Prop := IsHead name ∧ '\n' ∉ name.toList

/-- A character that belongs to no line's end. -/
def IsInnerChar (c : Char) : Prop := c ≠ '\n' ∧ c ≠ '\r'

/-- An apostrophe more, and a name can still be defined. -/
theorem isHeadLine_push {name : String} (h : IsHeadLine name) : IsHeadLine (name.push '\'') := by
  obtain ⟨⟨⟨hne, hopen, hclose⟩, hsign⟩, hline⟩ := h
  have hsign' : ¬[':', ':', '='] <:+: (name.push '\'').toList := by
    rw [String.toList_push, List.infix_concat_iff, List.suffix_concat_iff]
    rintro ((hnil | ⟨init, heq, -⟩) | hin)
    · cases hnil
    · have hlast := congrArg List.getLast? heq
      simp at hlast
    · exact hsign hin
  refine ⟨⟨⟨?_, ?_, ?_⟩, hsign'⟩, ?_⟩ <;> simp [String.toList_push, hne, hopen, hclose, hline]

/-- The characters of a grammar are those of its productions. -/
theorem mem_terminals {g : Grammar} {c : Char} : c ∈ g.terminals ↔ ∃ nt, ∃ p ∈ g.productionsOf nt, .terminal c ∈ p := by
  have hsymbol : ∀ s : Symbol, s.terminal? = some c ↔ s = .terminal c := fun s => by cases s <;> simp [Symbol.terminal?]
  rw [terminals, Ascending.mem_ofList_iff fun _ _ => Char.toNat_inj.1, List.mem_flatMap]
  simp only [Production.terminals, List.mem_filterMap, hsymbol, exists_eq_right, Prod.exists, Rules.mem_productions]
  exact exists_congr fun nt => exists_congr fun p => Iff.rfl

/-- A grammar that can be printed has names that can be defined, wherever there is a production. -/
theorem Printable.labelled {g : Grammar} (hg : g.Printable) (hreturn : '\r' ∉ g.terminals) : Labelled IsHeadLine IsInnerChar g := by
  have htext : ∀ nt, g.productionsOf nt ≠ [] → '\n' ∉ (g.definitionOf nt).text := fun nt hne =>
    g.text_definitionOf nt ▸ hg.line nt hne
  refine ⟨fun nt hne => ?_, fun nt p hp c hc => ⟨?_, ?_⟩⟩
  · obtain ⟨name, hname⟩ := hg.named nt (declared_of_productionsOf_ne_nil hne)
    rw [← nameOf_eq hname] at hname
    exact ⟨_, hname, hg.head nt hne, (Definition.newline_not_mem_text.1 (htext nt hne)).1⟩
  · rintro rfl
    have hbody := (Definition.newline_not_mem_text.1 (htext nt (List.ne_nil_of_mem hp))).2
    exact hbody (p.map g.spell) (List.mem_map.2 ⟨p, hp, rfl⟩) (.terminal '\n') (List.mem_map.2 ⟨_, hc, rfl⟩) (by decide)
  · rintro rfl
    exact hreturn (mem_terminals.2 ⟨nt, p, hp, hc⟩)

/-- A well-formed grammar in which every declared nonterminal has a production can be printed, if all names can be defined. -/
theorem Labelled.printable {g : Grammar} (hg : Labelled IsHeadLine IsInnerChar g) (hwf : g.WellFormed)
    (hproduction : ∀ nt ∈ g.declared, g.productionsOf nt ≠ []) : g.Printable := by
  have hmention : ∀ nt, ∀ p ∈ g.productionsOf nt, ∀ m, .nonterminal m ∈ p → IsHeadLine (g.nameOf m) := fun nt p hp m hm =>
    hg.nameOf (hproduction m (hwf.mention nt p hp m hm))
  refine ⟨hwf, hproduction _ hwf.start, fun nt hnt => ?_, fun nt hnt hnil => absurd hnil (hproduction nt hnt),
    fun nt hne => (hg.nameOf hne).1, fun nt p hp m hm => (hmention nt p hp m hm).1.toIsName, fun nt hne => ?_⟩
  · obtain ⟨name, hget, -⟩ := hg.head nt (hproduction nt hnt)
    exact ⟨name, hget⟩
  · rw [← text_definitionOf, Definition.newline_not_mem_text]
    refine ⟨(hg.nameOf hne).2, fun atoms hatoms a ha => ?_⟩
    obtain ⟨p, hp, rfl⟩ := List.mem_map.1 hatoms
    obtain ⟨s, hs, rfl⟩ := List.mem_map.1 ha
    cases s with
    | nonterminal m =>
      have hline := (hmention nt p hp m hs).2
      simp [spell, Atom.text, hline]
    | terminal c =>
      have hc : '\n' ≠ c := Ne.symm (hg.terminal nt p hp c hs).1
      by_cases hreserved : Text.isReserved c = true
      · simp [spell, Atom.text, hreserved, hc]
      · simp [spell, Atom.text, hreserved, hc]

/-- Every nonterminal that trimming leaves has a production. -/
theorem Trims.productionsOf_ne_nil {g h : Grammar} (ht : Trims g h) {nt : Nonterminal} (hnt : nt ∈ h.declared) :
    h.productionsOf nt ≠ [] := by
  obtain ⟨word, hword⟩ := mem_productive_iff.1 (ht.useful hnt).1
  exact productionsOf_ne_nil_of_mem_words hword

/-- A normalized grammar that comes from a text without carriage returns in its productions can be printed, and no last production
in it ends with a carriage return. -/
theorem printable_of_normalize {text : String} {g : Grammar} {n : Normalized} (h : ofText text = .ok g)
    (hreturn : '\r' ∉ g.terminals) (hn : g.normalize = .ok n) :
    n.grammar.Printable ∧
      ∀ nt p, (n.grammar.productionsOf nt).getLast? = some p → p.getLast? ≠ some (.terminal '\r') := by
  have hg := (printable_of_ofText h).1.labelled hreturn
  have hlabelled := hg.normalize (fun _ => isHeadLine_push) hn
  obtain ⟨-, followed, -, ht⟩ := exists_follow_of_normalize hn
  refine ⟨hlabelled.printable ht.wellFormed fun nt hnt => ht.productionsOf_ne_nil hnt, fun nt p hlast hreturn => ?_⟩
  exact (hlabelled.terminal nt p (List.mem_of_getLast? hlast) '\r' (List.mem_of_getLast? hreturn)).2 rfl

/-- A normalization puts no backslash into names. -/
theorem not_mentionsEscape_of_normalize {g : Grammar} {n : Normalized} (hg : g.Printable)
    (hplain : ∀ nt ∈ g.declared, '\\' ∉ (g.nameOf nt).toList) (hn : g.normalize = .ok n) : ¬n.grammar.MentionsEscape := by
  have hlabelled : Labelled (fun name => '\\' ∉ name.toList) (fun _ => True) g := by
    refine ⟨fun nt hne => ?_, fun _ _ _ _ _ => trivial⟩
    have hnt := declared_of_productionsOf_ne_nil hne
    obtain ⟨name, hname⟩ := hg.named nt hnt
    exact ⟨name, hname, nameOf_eq hname ▸ hplain nt hnt⟩
  have hresult := hlabelled.normalize (fun name h => by simp [String.toList_push, h]) hn
  obtain ⟨-, followed, -, ht⟩ := exists_follow_of_normalize hn
  rintro ⟨nt, p, hp, m, hm, hescape⟩
  exact hresult.nameOf (ht.productionsOf_ne_nil (ht.wellFormed.mention nt p hp m hm)) hescape

/-- A normalized grammar that comes from a text without carriage returns in its productions is given again by its text form, up
to renumbering, if it mentions no name with a backslash. If it does, its text form is refused for that. It does not when no
declared name had a backslash before. -/
theorem reload_of_normalize {text : String} {g : Grammar} {n : Normalized} (h : ofText text = .ok g)
    (hreturn : '\r' ∉ g.terminals) (hn : g.normalize = .ok n) :
    (¬n.grammar.MentionsEscape → ∃ g', ofText n.grammar.render = .ok g' ∧ SameByName n.grammar g') ∧
      (n.grammar.MentionsEscape → ∃ number, ofText n.grammar.render = .error (.atLine number .escapeInName)) ∧
      ((∀ nt ∈ g.declared, '\\' ∉ (g.nameOf nt).toList) → ¬n.grammar.MentionsEscape) := by
  obtain ⟨hprintable, hlast⟩ := printable_of_normalize h hreturn hn
  refine ⟨fun hescape => ?_, hprintable.ofText_render_eq_error, fun hplain => ?_⟩
  · exact ⟨_, hprintable.ofText_render hescape, hprintable.sameByName_reloaded_iff.2 hlast⟩
  · exact not_mentionsEscape_of_normalize (printable_of_ofText h).1 hplain hn

/-- Two words with a common beginning. -/
def sharing : Grammar :=
  ⟨0, .ofList [(0, [[.terminal 'a', .terminal 'b'], [.terminal 'a', .terminal 'c']])], .ofList [(0, "S")]⟩

/-- Once factored, the grammar can be reloaded. -/
theorem reload_of_normalize_sharing : ofText "<S>::=ab|ac" = .ok sharing ∧ ∃ n, sharing.normalize = .ok n ∧
    ∃ g', ofText n.grammar.render = .ok g' ∧ SameByName n.grammar g' := by
  have hg : ofText "<S>::=ab|ac" = .ok sharing := by decide
  obtain ⟨hreload, -, hescape⟩ := reload_of_normalize (g := sharing) hg (by decide) rfl
  exact ⟨hg, _, rfl, hreload (hescape (by decide))⟩

/-- The same under a name with a backslash. -/
def escaping : Grammar := { sharing with names := .ofList [(0, "a\\")] }

/-- Once factored, the grammar mentions a name that was only defined before, and its text form is refused. -/
theorem refused_escaping : ofText "<a\\>::=ab|ac" = .ok escaping ∧ '\r' ∉ escaping.terminals ∧
    ∃ n, escaping.normalize = .ok n ∧ ofText n.grammar.render = .error (.atLine 1 .escapeInName) :=
  ⟨by decide, by decide, _, rfl, by decide⟩

end Grammar

end TopDown
