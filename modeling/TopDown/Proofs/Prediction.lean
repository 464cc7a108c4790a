import TopDown.Prediction
import TopDown.Proofs.Leading

/-!
# Prediction, judged

The table is as good as derivations. A chain of symbols that begins with a character leads through the leading symbols of
productions, as saturation does, so the nonterminals that can begin with the character are those that derive something that
begins with it; FIRST, the choices and the candidates only put this in order. A production that stands for a word is therefore
worth trying before the first character of what is left of the input: it derives the empty word, or the character and what
follows it.

Main statements: `mem_beginningWith_iff`, `prediction_exact` and `mem_expansions_of_mem_reading`.
-/

namespace TopDown

open Production (reading)

namespace Production

/-- The first character of a production is one of its characters. -/
theorem mem_terminals_of_leadingTerminal? {nullable : List Nonterminal} {p : Production} {c : Char}
    (h : leadingTerminal? nullable p = some c) : c ∈ terminals p := by
  induction p with
  | nil => cases h
  | cons s p ih =>
    cases s with
    | terminal d =>
      cases h
      exact List.mem_cons_self
    | nonterminal nt =>
      rw [leadingTerminal?] at h
      split at h
      · exact ih h
      · cases h

end Production

/-- The places of the members that pass a test strictly ascend. -/
theorem pairwise_snd_filter_zipIdx {α : Type} (l : List α) (keep : α × Nat → Bool) :
    ((l.zipIdx.filter keep).map Prod.snd).Pairwise (· < ·) := by
  have hplaces : (l.zipIdx.map Prod.snd).Pairwise (· < ·) := by
    rw [List.zipIdx_map_snd]
    exact List.pairwise_lt_range'
  exact hplaces.sublist (List.filter_sublist.map Prod.snd)

namespace Prediction

/-- The places of the candidates strictly ascend. -/
theorem pairwise_candidates (t : Prediction) (nt : Nonterminal) (next : Option Char) :
    (t.candidates nt next).Pairwise (· < ·) :=
  pairwise_snd_filter_zipIdx _ _

/-- The productions tried are those at the places of the candidates, in order. -/
theorem expansions_eq_filterMap (t : Prediction) (nt : Nonterminal) (next : Option Char) :
    t.expansions nt next =
      (t.candidates nt next).filterMap fun index => (t.choicesOf nt)[index]?.map Choice.production := by
  have hfound : ∀ entry ∈ (t.choicesOf nt).zipIdx.filter fun entry => entry.1.isViable next,
      (t.choicesOf nt)[entry.2]?.map Choice.production = some entry.1.production := by
    intro entry h
    rw [List.mem_zipIdx_iff_getElem?.1 (List.mem_filter.1 h).1, Option.map_some]
  calc t.expansions nt next
    _ = (((t.choicesOf nt).zipIdx.map Prod.fst).filter (Choice.isViable next)).map Choice.production := by
      rw [List.zipIdx_map_fst, expansions]
    _ = ((t.choicesOf nt).zipIdx.filter fun entry => entry.1.isViable next).map fun entry => entry.1.production := by
      rw [List.filter_map, List.map_map]
      rfl
    _ = _ := by
      rw [candidates, List.filterMap_map, ← List.filterMap_eq_map]
      exact List.filterMap_congr fun entry h => (hfound entry h).symm

end Prediction

namespace Grammar

/-- How a production lets its nonterminal begin with a character. -/
theorem mem_beginClauses {nullable : List Nonterminal} {c : Char} {nt : Nonterminal} {p : Production}
    {clause : Clause Nonterminal} : clause ∈ beginClauses nullable c (nt, p) ↔
      Production.leadingTerminal? nullable p = some c ∧ clause = ⟨nt, []⟩ ∨
        ∃ lead ∈ Production.leadingNonterminals nullable p, clause = ⟨nt, [lead]⟩ := by
  unfold beginClauses
  rw [List.mem_append, List.mem_map]
  refine or_congr ?_ (by simp only [eq_comm])
  split
  · rename_i h
    simp [h]
  · rename_i h
    simp [h]

/-- A nonterminal can begin with a character when one of its productions can. -/
theorem mem_beginningWith {g : Grammar} {nullable : List Nonterminal} {c : Char} {nt : Nonterminal} {p : Production}
    (hp : p ∈ g.productionsOf nt) (h : Production.leadingTerminal? nullable p = some c ∨
      ∃ lead ∈ Production.leadingNonterminals nullable p, lead ∈ g.beginningWith nullable c) :
    nt ∈ g.beginningWith nullable c := by
  have hclause : ∀ clause ∈ beginClauses nullable c (nt, p),
      clause ∈ g.rules.productions.flatMap (beginClauses nullable c) := fun clause hc =>
    List.mem_flatMap.2 ⟨(nt, p), Rules.mem_productions.2 hp, hc⟩
  rcases h with ht | ⟨lead, hl, hb⟩
  · exact mem_saturate (hclause ⟨nt, []⟩ (mem_beginClauses.2 (Or.inl ⟨ht, rfl⟩))) fun _ ha => nomatch ha
  · refine mem_saturate (hclause ⟨nt, [lead]⟩ (mem_beginClauses.2 (Or.inr ⟨lead, hl, rfl⟩))) fun a ha => ?_
    exact List.mem_singleton.1 ha ▸ hb

/-- What can begin with a character is declared, and the character is one of the grammar. -/
theorem declared_of_mem_beginningWith {g : Grammar} {nullable : List Nonterminal} {c : Char} :
    ∀ nt ∈ g.beginningWith nullable c, nt ∈ g.declared ∧ c ∈ g.terminals := by
  refine saturate_induction fun clause hc hbody => ?_
  obtain ⟨⟨nt, p⟩, hp, hc⟩ := List.mem_flatMap.1 hc
  have hd := declared_of_mem_productionsOf (Rules.mem_productions.1 hp)
  rcases mem_beginClauses.1 hc with ⟨ht, rfl⟩ | ⟨lead, -, rfl⟩
  · have hmem : c ∈ g.rules.productions.flatMap fun rule => Production.terminals rule.2 :=
      List.mem_flatMap.2 ⟨(nt, p), hp, Production.mem_terminals_of_leadingTerminal? ht⟩
    exact ⟨hd, (Ascending.mem_ofList_iff fun _ _ => Char.toNat_inj.1).2 hmem⟩
  · exact ⟨hd, (hbody lead List.mem_cons_self).2⟩

/-- A nonterminal that can begin with a character is begun by it, in one turn or more. -/
theorem transGen_begins_of_mem_beginningWith {g : Grammar} {c : Char} :
    ∀ nt ∈ g.beginningWith g.nullable c, Relation.TransGen g.Begins (.terminal c) (.nonterminal nt) := by
  refine saturate_induction fun clause hc hbody => ?_
  obtain ⟨⟨nt, p⟩, hp, hc⟩ := List.mem_flatMap.1 hc
  have hp := Rules.mem_productions.1 hp
  rcases mem_beginClauses.1 hc with ⟨ht, rfl⟩ | ⟨lead, hl, rfl⟩
  · exact Relation.TransGen.single (Begins.production hp (opens_terminal_iff.2 ht))
  · exact (hbody lead List.mem_cons_self).tail (Begins.production hp (opens_nonterminal_iff.2 hl))

/-- What a character begins, in one turn or more, are the nonterminals that can begin with it. -/
theorem transGen_begins_terminal_iff {g : Grammar} {c : Char} {t : Symbol} :
    Relation.TransGen g.Begins (.terminal c) t ↔ ∃ nt, t = .nonterminal nt ∧ nt ∈ g.beginningWith g.nullable c := by
  constructor
  · intro h
    induction h with
    | single h =>
      cases h with
      | @production nt p hp ho => exact ⟨nt, rfl, mem_beginningWith hp (Or.inl (opens_terminal_iff.1 ho))⟩
    | tail _ h ih =>
      obtain ⟨lead, rfl, hlead⟩ := ih
      cases h with
      | @production nt p hp ho => exact ⟨nt, rfl, mem_beginningWith hp (Or.inr ⟨lead, opens_nonterminal_iff.1 ho, hlead⟩)⟩
  · rintro ⟨nt, rfl, h⟩
    exact transGen_begins_of_mem_beginningWith nt h

/-- A nonterminal can begin with a character when it derives something that does. -/
theorem mem_beginningWith_iff {g : Grammar} {nt : Nonterminal} {c : Char} :
    nt ∈ g.beginningWith g.nullable c ↔ ∃ rest, g.Derives [.nonterminal nt] (.terminal c :: rest) := by
  rw [exists_derives_cons_iff]
  simp only [opens_singleton_iff, exists_eq_left, Relation.reflTransGen_iff_eq_or_transGen, transGen_begins_terminal_iff]
  simp

/-- The first table has what a nonterminal can begin with. -/
theorem mem_firstTable_iff {g : Grammar} {nullable : List Nonterminal} {nt : Nonterminal} {c : Char} :
    c ∈ (Table.get? nt (g.firstTable nullable)).getD [] ↔ nt ∈ g.beginningWith nullable c := by
  let columns := g.terminals.map fun c => (c, g.beginningWith nullable c)
  let row := fun nt => (columns.filter fun column => column.2.contains nt).map Prod.fst
  have htable : g.firstTable nullable = g.rules.entries.map fun entry => (entry.1, row entry.1) := by
    rw [firstTable, declared, Rules.declared, List.map_map]
    rfl
  have hrow : c ∈ row nt ↔ c ∈ g.terminals ∧ nt ∈ g.beginningWith nullable c := by
    constructor
    · intro h
      obtain ⟨column, hcolumn, rfl⟩ := List.mem_map.1 h
      obtain ⟨hmem, hcontains⟩ := List.mem_filter.1 hcolumn
      obtain ⟨d, hd, rfl⟩ := List.mem_map.1 hmem
      exact ⟨hd, List.contains_iff_mem.1 hcontains⟩
    · rintro ⟨hc, hnt⟩
      exact List.mem_map.2 ⟨(c, g.beginningWith nullable c),
        List.mem_filter.2 ⟨List.mem_map.2 ⟨c, hc, rfl⟩, List.contains_iff_mem.2 hnt⟩, rfl⟩
  rw [htable, Table.get?_map fun nt _ => row nt]
  constructor
  · intro h
    cases hget : Table.get? nt g.rules.entries with
    | none =>
      rw [hget] at h
      cases h
    | some a =>
      rw [hget] at h
      exact (hrow.1 h).2
  · intro h
    obtain ⟨hd, hc⟩ := declared_of_mem_beginningWith nt h
    obtain ⟨a, ha, -⟩ := exists_get?_of_declared hd
    rw [show Table.get? nt g.rules.entries = some a from ha]
    exact hrow.2 ⟨hc, h⟩

/-- A production can begin with its first character and with what its leading nonterminals can begin with. -/
theorem mem_firstOfProduction_iff {g : Grammar} {nullable : List Nonterminal} {p : Production} {c : Char} :
    c ∈ firstOfProduction nullable (g.firstTable nullable) p ↔ Production.leadingTerminal? nullable p = some c ∨
      ∃ lead ∈ Production.leadingNonterminals nullable p, lead ∈ g.beginningWith nullable c := by
  rw [firstOfProduction, Ascending.mem_ofList_iff fun _ _ => Char.toNat_inj.1, List.mem_append, Option.mem_toList, List.mem_flatMap]
  simp only [mem_firstTable_iff]

/-- What a production can begin with is what begins something that it derives. -/
theorem mem_firstOfProduction_iff_derives {g : Grammar} {p : Production} {c : Char} :
    c ∈ firstOfProduction g.nullable (g.firstTable g.nullable) p ↔ ∃ rest, g.Derives p (.terminal c :: rest) := by
  rw [mem_firstOfProduction_iff, exists_derives_cons_iff]
  simp only [← opens_terminal_iff, ← opens_nonterminal_iff]
  constructor
  · rintro (ho | ⟨lead, ho, hlead⟩)
    · exact ⟨_, ho, Relation.ReflTransGen.refl⟩
    · exact ⟨_, ho, (transGen_begins_of_mem_beginningWith lead hlead).to_reflTransGen⟩
  · rintro ⟨t, ho, hchain⟩
    rcases Relation.reflTransGen_iff_eq_or_transGen.1 hchain with rfl | hchain
    · exact Or.inl ho
    · obtain ⟨lead, rfl, hlead⟩ := transGen_begins_terminal_iff.1 hchain
      exact Or.inr ⟨lead, ho, hlead⟩

/-- A production is worth trying when it derives the empty word, or something that begins with the next character. -/
theorem isViable_choice_iff {g : Grammar} {next : Option Char} {p : Production} :
    (choice g.nullable (g.firstTable g.nullable) p).isViable next = true ↔
      g.Derives p [] ∨ ∃ c, next = some c ∧ ∃ rest, g.Derives p (.terminal c :: rest) := by
  rw [derives_nil_iff, ← isNullable_nullable_iff]
  simp only [← mem_firstOfProduction_iff_derives]
  cases next <;> simp [Choice.isViable, choice]

/-- The places of the candidates are those of the productions worth trying. -/
theorem mem_candidates_iff {g : Grammar} {nt : Nonterminal} {next : Option Char} {index : Nat} :
    index ∈ g.prediction.candidates nt next ↔ ∃ p, (g.productionsOf nt)[index]? = some p ∧
      (g.Derives p [] ∨ ∃ c, next = some c ∧ ∃ rest, g.Derives p (.terminal c :: rest)) := by
  rw [Prediction.candidates, choicesOf_prediction]
  simp only [List.mem_map, List.mem_filter, Prod.exists, List.mem_zipIdx_iff_getElem?, List.getElem?_map, Option.map_eq_some_iff]
  constructor
  · rintro ⟨_, _, ⟨⟨p, hp, rfl⟩, hviable⟩, rfl⟩
    exact ⟨p, hp, isViable_choice_iff.1 hviable⟩
  · rintro ⟨p, hp, hviable⟩
    exact ⟨_, index, ⟨⟨p, hp, rfl⟩, isViable_choice_iff.2 hviable⟩, rfl⟩

/-- The productions tried are those at the places of the candidates, in order. -/
theorem expansions_prediction (g : Grammar) (nt : Nonterminal) (next : Option Char) :
    g.prediction.expansions nt next =
      (g.prediction.candidates nt next).filterMap fun index => (g.productionsOf nt)[index]? := by
  have hproduction : Choice.production ∘ choice g.nullable (g.firstTable g.nullable) = id := rfl
  rw [Prediction.expansions_eq_filterMap, choicesOf_prediction]
  simp only [List.getElem?_map, Option.map_map, hproduction, Option.map_id, id]

/-- The productions tried are those worth trying. -/
theorem mem_expansions_iff {g : Grammar} {nt : Nonterminal} {next : Option Char} {p : Production} :
    p ∈ g.prediction.expansions nt next ↔ p ∈ g.productionsOf nt ∧
      (g.Derives p [] ∨ ∃ c, next = some c ∧ ∃ rest, g.Derives p (.terminal c :: rest)) := by
  rw [expansions_prediction, List.mem_filterMap]
  simp only [mem_candidates_iff]
  constructor
  · rintro ⟨index, ⟨q, hq, hworth⟩, hp⟩
    rw [hq] at hp
    cases hp
    exact ⟨List.mem_of_getElem? hq, hworth⟩
  · rintro ⟨hp, hworth⟩
    obtain ⟨index, hindex⟩ := List.mem_iff_getElem?.1 hp
    exact ⟨index, ⟨p, hindex, hworth⟩, hindex⟩

/-- A production that stands for the beginning of the input is worth trying. -/
theorem mem_expansions_of_mem_reading {g : Grammar} {nt : Nonterminal} {p : Production} (hp : p ∈ g.productionsOf nt)
    {u : List Char} (hu : u ∈ reading g.words p) (v : List Char) :
    p ∈ g.prediction.expansions nt (u ++ v).head? := by
  refine mem_expansions_iff.2 ⟨hp, ?_⟩
  cases u with
  | nil => exact Or.inl (derives_of_mem_reading hu)
  | cons c u => exact Or.inr ⟨c, rfl, _, derives_of_mem_reading hu⟩

/-! ## The table as a whole -/

/-- A character is in FIRST of a nonterminal when the nonterminal derives something that begins with it. -/
theorem mem_firstOf_iff {g : Grammar} {nt : Nonterminal} {c : Char} :
    c ∈ g.prediction.firstOf nt ↔ ∃ rest, g.Derives [.nonterminal nt] (.terminal c :: rest) := by
  rw [← mem_beginningWith_iff, ← mem_firstTable_iff]
  rfl

/-- A nonterminal can vanish when it derives the empty word. -/
theorem isNullable_prediction_iff {g : Grammar} {nt : Nonterminal} :
    g.prediction.isNullable nt = true ↔ g.Derives [.nonterminal nt] [] := by
  rw [derives_nil_iff, Production.reading_singleton, ← mem_nullable_iff]
  exact List.contains_iff_mem

/-- The production at a place can vanish when there is one and it derives the empty word. -/
theorem productionNullable_iff {g : Grammar} {nt : Nonterminal} {index : Nat} :
    g.prediction.productionNullable nt index = true ↔ ∃ p, (g.productionsOf nt)[index]? = some p ∧ g.Derives p [] := by
  rw [Prediction.productionNullable, choicesOf_prediction, List.getElem?_map]
  simp only [derives_nil_iff, ← isNullable_nullable_iff]
  cases (g.productionsOf nt)[index]? <;> simp [choice]

/-- FIRST and the prediction table tell what derivations do. A character is in FIRST of a nonterminal, declared or not, when the
nonterminal derives something that begins with it; a nonterminal, or the production at a place, can vanish when it derives the
empty word. The candidates before a character are, in ascending order, the places of the productions that derive something that
begins with it or the empty word; at the end of the input they are those of the productions that derive the empty word. -/
theorem prediction_exact (g : Grammar) (nt : Nonterminal) (c : Char) :
    (c ∈ g.prediction.firstOf nt ↔ ∃ rest, g.Derives [.nonterminal nt] (.terminal c :: rest)) ∧
    (g.prediction.isNullable nt = true ↔ g.Derives [.nonterminal nt] []) ∧
    (∀ index, g.prediction.productionNullable nt index = true ↔
      ∃ p, (g.productionsOf nt)[index]? = some p ∧ g.Derives p []) ∧
    ((g.prediction.candidates nt (some c)).Pairwise (· < ·) ∧
      ∀ index, index ∈ g.prediction.candidates nt (some c) ↔
        ∃ p, (g.productionsOf nt)[index]? = some p ∧ ((∃ rest, g.Derives p (.terminal c :: rest)) ∨ g.Derives p [])) ∧
    (g.prediction.candidates nt none).Pairwise (· < ·) ∧
      ∀ index, index ∈ g.prediction.candidates nt none ↔
        ∃ p, (g.productionsOf nt)[index]? = some p ∧ g.Derives p [] := by
  refine ⟨mem_firstOf_iff, isNullable_prediction_iff, fun _ => productionNullable_iff,
    ⟨Prediction.pairwise_candidates _ _ _, fun index => ?_⟩, Prediction.pairwise_candidates _ _ _, fun index => ?_⟩
  · rw [mem_candidates_iff]
    simp [or_comm]
  · rw [mem_candidates_iff]
    simp

end Grammar

end TopDown
