import TopDown.Proofs.FirstSweeps

/-!
# The prediction table as it is made, judged

The lists of the characters are filled production by production, those that can vanish join every list, and sorting brings equal
numbers together, so that freeing a list of repetitions leaves it strictly ascending. A character without a list begins no
production of the nonterminal; then the productions that can vanish are all that is worth trying. Whatever the list, its numbers
are those of the productions that can begin with the character or vanish, and two ascending lists with the same members are equal.

Main statement: `firstMap_exact`.
-/

namespace TopDown

/-! ## Lists of numbers -/

theorem mem_withoutRepetitions_iff {l : List Nat} {n : Nat} : n ∈ withoutRepetitions l ↔ n ∈ l := by
  fun_induction withoutRepetitions l with
  | case1 a l ih => simp [ih]
  | case2 a b l _ ih => simp [ih]
  | case3 => rfl

/-- Freed of repetitions, an ascending list ascends strictly. -/
theorem pairwise_withoutRepetitions {l : List Nat} (h : l.Pairwise (· ≤ ·)) : (withoutRepetitions l).Pairwise (· < ·) := by
  fun_induction withoutRepetitions l with
  | case1 a l ih => exact ih h.of_cons
  | case2 a b l hne ih =>
    obtain ⟨ha, hl⟩ := List.pairwise_cons.1 h
    obtain ⟨hb, -⟩ := List.pairwise_cons.1 hl
    have hab : a < b := Nat.lt_of_le_of_ne (ha b List.mem_cons_self) hne
    refine List.Pairwise.cons (fun n hn => ?_) (ih hl)
    rcases List.mem_cons.1 (mem_withoutRepetitions_iff.1 hn) with rfl | hn
    · exact hab
    · exact Nat.lt_of_lt_of_le hab (hb n hn)
  | case3 l hshort =>
    match l with
    | [] => exact List.Pairwise.nil
    | [n] => exact List.pairwise_singleton _ n
    | a :: b :: l => exact (hshort a b l rfl).elim

theorem pairwise_mergeSort_le (l : List Nat) : (l.mergeSort (· ≤ ·)).Pairwise (· ≤ ·) := by
  have htrans : ∀ a b c : Nat, decide (a ≤ b) = true → decide (b ≤ c) = true → decide (a ≤ c) = true := by
    intro a b c hab hbc
    exact decide_eq_true (Nat.le_trans (of_decide_eq_true hab) (of_decide_eq_true hbc))
  have htotal : ∀ a b : Nat, (decide (a ≤ b) || decide (b ≤ a)) = true := by
    intro a b
    simpa using Nat.le_total a b
  exact (List.pairwise_mergeSort htrans htotal l).imp of_decide_eq_true

theorem mem_places_iff {flags : List Bool} {index : Nat} : index ∈ places flags ↔ flags[index]? = some true := by
  simp [places, List.mem_zipIdx_iff_getElem?]

theorem pairwise_places (flags : List Bool) : (places flags).Pairwise (· < ·) := pairwise_snd_filter_zipIdx _ _

/-! ## The lists of the characters -/

/-- The list of a character, empty if there is none. -/
def listOf (lists : List (Char × List Nat)) (c : Char) : List Nat := (lists.lookup c).getD []

theorem lookup_cons_eq_ite {κ γ : Type} [BEq κ] [LawfulBEq κ] [DecidableEq κ] (k a : κ) (b : γ) (l : List (κ × γ)) :
    ((a, b) :: l).lookup k = if k = a then some b else l.lookup k := by
  rw [List.lookup_cons]
  by_cases h : k = a
  · simp [h]
  · rw [beq_eq_false_iff_ne.2 h, if_neg h]

theorem listOf_enlist (c d : Char) (i : Nat) (lists : List (Char × List Nat)) :
    listOf (enlist c i lists) d = if d = c then listOf lists c ++ [i] else listOf lists d := by
  induction lists with
  | nil =>
    rw [enlist, listOf, lookup_cons_eq_ite]
    split <;> rfl
  | cons entry lists ih =>
    obtain ⟨e, list⟩ := entry
    simp only [listOf, lookup_cons_eq_ite] at ih ⊢
    unfold enlist
    by_cases hc : c = e
    · subst hc
      rw [if_pos rfl, lookup_cons_eq_ite]
      by_cases hd : d = c <;> simp [hd]
    · rw [if_neg hc, lookup_cons_eq_ite]
      by_cases hd : d = e
      · have hdc : d ≠ c := fun heq => hc (heq.symm.trans hd)
        simp [hd, hd ▸ hdc]
      · simp [hd, hc, ih]

/-- Putting a number on the lists of some characters. -/
theorem mem_listOf_foldl_enlist {cs : List Char} {i j : Nat} {d : Char} {lists : List (Char × List Nat)} :
    j ∈ listOf (cs.foldl (fun lists c => enlist c i lists) lists) d ↔ j ∈ listOf lists d ∨ d ∈ cs ∧ j = i := by
  induction cs generalizing lists with
  | nil => simp
  | cons c cs ih =>
    rw [List.foldl_cons, ih, listOf_enlist, List.mem_cons]
    by_cases h : d = c
    · subst h
      simp only [if_true, List.mem_append, List.mem_singleton, true_or, true_and]
      tauto
    · simp [h]

/-- Putting numbers on the lists of the characters that come with each. -/
theorem mem_listOf_foldl_iff {α : Type} {charactersOf : α → List Char} {entries : List (α × Nat)} {j : Nat} {d : Char}
    {lists : List (Char × List Nat)} :
    j ∈ listOf (entries.foldl (fun lists entry =>
        (charactersOf entry.1).foldl (fun lists c => enlist c entry.2 lists) lists) lists) d ↔
      j ∈ listOf lists d ∨ ∃ a, (a, j) ∈ entries ∧ d ∈ charactersOf a := by
  induction entries generalizing lists with
  | nil => simp
  | cons entry entries ih =>
    obtain ⟨a, i⟩ := entry
    rw [List.foldl_cons, ih, mem_listOf_foldl_enlist, or_assoc]
    refine or_congr_right ?_
    simp only [List.mem_cons, Prod.mk.injEq, or_and_right, exists_or]
    refine or_congr_left ⟨?_, ?_⟩
    · rintro ⟨hd, rfl⟩
      exact ⟨a, ⟨rfl, rfl⟩, hd⟩
    · rintro ⟨b, ⟨rfl, rfl⟩, hd⟩
      exact ⟨hd, rfl⟩

theorem lookup_map_pair {γ δ : Type} (f : γ → δ) (nt k : Nonterminal) (c : Char) (lists : List (Char × γ)) :
    (lists.map fun list => ((k, list.1), f list.2)).lookup (nt, c) = if nt = k then (lists.lookup c).map f else none := by
  induction lists with
  | nil => simp
  | cons list lists ih =>
    obtain ⟨d, a⟩ := list
    simp only [List.map_cons, lookup_cons_eq_ite, ih, Prod.mk.injEq]
    by_cases hk : nt = k <;> by_cases hc : c = d <;> simp [hk, hc]

/-- Where no nonterminal has two pairs, the list of one and a character comes from what belongs to the nonterminal. -/
theorem lookup_flatMap {β γ δ : Type} {t : Table β} (hnodup : (t.map Prod.fst).Nodup) (listsOf : β → List (Char × γ))
    (f : β → γ → δ) (nt : Nonterminal) (c : Char) :
    (t.flatMap fun entry => (listsOf entry.2).map fun list => ((entry.1, list.1), f entry.2 list.2)).lookup (nt, c) =
      (Table.get? nt t).bind fun b => ((listsOf b).lookup c).map (f b) := by
  induction t with
  | nil => rfl
  | cons entry t ih =>
    obtain ⟨k, b⟩ := entry
    obtain ⟨hk, ht⟩ := List.nodup_cons.1 hnodup
    rw [List.flatMap_cons, List.lookup_append, ih ht, lookup_map_pair, Table.get?_cons]
    by_cases h : nt = k
    · subst h
      have hnone : Table.get? nt t = none := Table.get?_eq_none_iff.2 hk
      simp [hnone]
    · simp [h]

namespace Grammar

variable {g : Grammar} {nullable : List Nonterminal} {first : Table (List Nat)} {nt : Nonterminal}

theorem mem_listOf_listsOf_iff {ps : List Production} {index : Nat} {c : Char} :
    index ∈ listOf (g.listsOf nullable first ps) c ↔
      ∃ p, ps[index]? = some p ∧ c ∈ Production.firstCharacters g.terminals nullable first p := by
  rw [listsOf, mem_listOf_foldl_iff]
  simp [listOf, List.mem_zipIdx_iff_getElem?]

/-! ## Looking up in the tables -/

theorem placesOf_vanishing (g : Grammar) (nullable : List Nonterminal) (first : Table (List Nat)) (nt : Nonterminal) :
    placesOf (g.tabulate nullable first).vanishing nt = places ((g.productionsOf nt).map (Production.isNullable nullable)) := by
  have hget := Table.get?_map (fun _ (a : Alternatives) => places (a.toList.map (Production.isNullable nullable))) nt
    g.rules.entries
  simp only [placesOf, tabulate, hget, productionsOf, Rules.productionsOf, Rules.get?]
  cases Table.get? nt g.rules.entries <;> rfl

theorem productionNullable_tabulate (g : Grammar) (nullable : List Nonterminal) (first : Table (List Nat)) (nt : Nonterminal)
    (index : Nat) : (g.tabulate nullable first).productionNullable nt index =
      (g.productionsOf nt)[index]?.any (Production.isNullable nullable) := by
  have hget := Table.get?_map (fun _ (a : Alternatives) => a.toList.map (Production.isNullable nullable)) nt g.rules.entries
  simp only [FirstMap.productionNullable, tabulate, hget, productionsOf, Rules.productionsOf, Rules.get?]
  cases Table.get? nt g.rules.entries with
  | none => simp [Alternatives.empty]
  | some a =>
    simp only [Option.map_some, Option.bind_some, List.getElem?_map, Option.getD_some]
    cases a.toList[index]? <;> rfl

/-- The list of a nonterminal and a character is that of the character, with the productions that can vanish, in order. -/
theorem lookup_predict (g : Grammar) (nullable : List Nonterminal) (first : Table (List Nat)) (nt : Nonterminal) (c : Char) :
    (g.tabulate nullable first).predict.lookup (nt, c) =
      ((g.listsOf nullable first (g.productionsOf nt)).lookup c).map fun list =>
        withoutRepetitions
          ((list ++ places ((g.productionsOf nt).map (Production.isNullable nullable))).mergeSort (· ≤ ·)) := by
  have hlookup := lookup_flatMap g.rules.nodup (fun a => g.listsOf nullable first a.toList) (fun a list =>
    withoutRepetitions ((list ++ places (a.toList.map (Production.isNullable nullable))).mergeSort (· ≤ ·))) nt c
  rw [tabulate, hlookup]
  simp only [productionsOf, Rules.productionsOf, Rules.get?]
  cases Table.get? nt g.rules.entries <;> rfl

/-- The candidates ascend strictly. -/
theorem pairwise_candidates_tabulate (next : Option Char) :
    ((g.tabulate nullable first).candidates nt next).Pairwise (· < ·) := by
  have hvanishing : (placesOf (g.tabulate nullable first).vanishing nt).Pairwise (· < ·) := by
    rw [placesOf_vanishing]
    exact pairwise_places _
  cases next with
  | none => exact hvanishing
  | some c =>
    simp only [FirstMap.candidates, lookup_predict]
    cases (g.listsOf nullable first (g.productionsOf nt)).lookup c with
    | none => exact hvanishing
    | some list => exact pairwise_withoutRepetitions (pairwise_mergeSort_le _)

/-- The candidates are the places of the productions that can vanish or begin with the next character. -/
theorem mem_candidates_tabulate_iff {next : Option Char} {index : Nat} :
    index ∈ (g.tabulate nullable first).candidates nt next ↔ ∃ p, (g.productionsOf nt)[index]? = some p ∧
      (Production.isNullable nullable p = true ∨
        ∃ c, next = some c ∧ c ∈ Production.firstCharacters g.terminals nullable first p) := by
  have hvanishing : index ∈ placesOf (g.tabulate nullable first).vanishing nt ↔
      ∃ p, (g.productionsOf nt)[index]? = some p ∧ Production.isNullable nullable p = true := by
    rw [placesOf_vanishing, mem_places_iff, List.getElem?_map, Option.map_eq_some_iff]
  cases next with
  | none => simpa [FirstMap.candidates] using hvanishing
  | some c =>
    have hcandidates : index ∈ (g.tabulate nullable first).candidates nt (some c) ↔
        index ∈ placesOf (g.tabulate nullable first).vanishing nt ∨
          index ∈ listOf (g.listsOf nullable first (g.productionsOf nt)) c := by
      simp only [FirstMap.candidates, lookup_predict, listOf]
      cases (g.listsOf nullable first (g.productionsOf nt)).lookup c with
      | none => simp
      | some list =>
        simp only [Option.map_some, Option.getD_some, mem_withoutRepetitions_iff, List.mem_mergeSort, List.mem_append,
          placesOf_vanishing]
        exact or_comm
    rw [hcandidates, hvanishing, mem_listOf_listsOf_iff, ← exists_or]
    simp only [← and_or_left, Option.some.injEq, exists_eq_left']

/-! ## Agreement -/

theorem beginningWith_congr {nullable' : List Nonterminal} (h : ∀ nt, nt ∈ nullable ↔ nt ∈ nullable') (c : Char) :
    g.beginningWith nullable c = g.beginningWith nullable' c := by
  refine congrArg saturate (List.flatMap_congr fun rule _ => ?_)
  rw [beginClauses, Production.leadingTerminal?_congr h, Production.leadingNonterminals_congr h]
  rfl

/-- With all that sweeps find, the characters of a production are those that begin what it derives. -/
theorem mem_firstCharacters_iff_derives {limit : Nat} (hnullable : ∀ nt, nt ∈ nullable ↔ nt ∈ g.nullable)
    (hfirst : g.firstBySweeps nullable limit = some first) {p : Production} (hp : p ∈ g.productionsOf nt) {c : Char} :
    c ∈ Production.firstCharacters g.terminals nullable first p ↔ ∃ rest, g.Derives p (.terminal c :: rest) := by
  rw [mem_firstCharacters_iff hfirst hp, mem_firstOfProduction_iff, Production.leadingTerminal?_congr hnullable,
    Production.leadingNonterminals_congr hnullable, beginningWith_congr hnullable, ← mem_firstOfProduction_iff,
    mem_firstOfProduction_iff_derives]

/-- FIRST of a nonterminal ascends. -/
theorem sorted_firstOf_prediction (g : Grammar) (nt : Nonterminal) :
    Ascending.Sorted Char.toNat (g.prediction.firstOf nt) := by
  let columns := g.terminals.map fun c => (c, g.beginningWith g.nullable c)
  have hcolumns : Ascending.Sorted Char.toNat (columns.map Prod.fst) := by
    have hfst : columns.map Prod.fst = g.terminals := by simp [columns, Function.comp_def]
    rw [hfst]
    exact Ascending.sorted_ofList _ _
  simp only [Prediction.firstOf, prediction, firstTable, Table.get?_map_pair]
  split
  · exact hcolumns.sublist (List.filter_sublist.map Prod.fst)
  · exact List.Pairwise.nil

end Grammar

/-- The tables answer every question as the prediction table does. -/
structure FirstMap.Agrees (m : FirstMap) (t : Prediction) : Prop where
  firstOf : ∀ nt, m.firstOf nt = t.firstOf nt
  isNullable : ∀ nt, m.isNullable nt = t.isNullable nt
  productionNullable : ∀ nt index, m.productionNullable nt index = t.productionNullable nt index
  candidates : ∀ nt next, m.candidates nt next = t.candidates nt next

namespace Grammar

variable {g : Grammar}

/-- Tables made from all that sweeps find agree with the prediction table. -/
theorem agrees_tabulate {nullable : List Nonterminal} {first : Table (List Nat)} {limit : Nat}
    (hnullable : ∀ nt, nt ∈ nullable ↔ nt ∈ g.nullable) (hfirst : g.firstBySweeps nullable limit = some first) :
    (g.tabulate nullable first).Agrees g.prediction where
  firstOf nt := by
    refine (Ascending.sorted_ofList _ _).eq_of_mem_iff (g.sorted_firstOf_prediction nt) fun c => ?_
    rw [Ascending.mem_ofList_iff fun _ _ => Char.toNat_inj.1, List.mem_filterMap, mem_firstOf_iff, ← mem_beginningWith_iff,
      ← beginningWith_congr hnullable]
    constructor
    · rintro ⟨place, hplace, hc⟩
      obtain ⟨d, hd, hbegins⟩ := (mem_firstBySweeps_iff hfirst).1 hplace
      have hdc : d = c := Option.some.inj (hd.symm.trans hc)
      exact hdc ▸ hbegins
    · intro hbegins
      obtain ⟨place, hplace⟩ := List.mem_iff_getElem?.1 (declared_of_mem_beginningWith nt hbegins).2
      exact ⟨place, (mem_firstBySweeps_iff hfirst).2 ⟨c, hplace, hbegins⟩, hplace⟩
  isNullable nt := by
    rw [Bool.eq_iff_iff, isNullable_prediction_iff, derives_nil_iff, Production.reading_singleton, ← mem_nullable_iff,
      ← hnullable]
    exact List.contains_iff_mem
  productionNullable nt index := by
    rw [Bool.eq_iff_iff, productionNullable_tabulate, productionNullable_iff, Option.any_eq_true]
    simp only [Production.isNullable_congr hnullable, isNullable_nullable_iff, derives_nil_iff]
  candidates nt next := by
    have hsorted : Ascending.Sorted id ((g.tabulate nullable first).candidates nt next) := pairwise_candidates_tabulate next
    refine hsorted.eq_of_mem_iff (Prediction.pairwise_candidates _ nt next) fun index => ?_
    rw [mem_candidates_tabulate_iff, mem_candidates_iff]
    refine exists_congr fun p => and_congr_right fun hp => ?_
    rw [Production.isNullable_congr hnullable, isNullable_nullable_iff, derives_nil_iff]
    simp only [mem_firstCharacters_iff_derives hnullable hfirst (List.mem_of_getElem? hp)]

theorem firstMap_eq_some_iff {limit : Nat} {m : FirstMap} : g.firstMap limit = some m ↔
    ∃ nullable, g.nullableBySweeps limit = some nullable ∧
      ∃ first, g.firstBySweeps nullable limit = some first ∧ g.tabulate nullable first = m := by
  simp [firstMap, Option.bind_eq_some_iff]

/-- Tables that were made would not be others under a larger limit. -/
theorem firstMap_add {limit : Nat} {m : FirstMap} (h : g.firstMap limit = some m) (more : Nat) :
    g.firstMap (limit + more) = some m := by
  obtain ⟨nullable, hnullable, first, hfirst, hm⟩ := firstMap_eq_some_iff.1 h
  exact firstMap_eq_some_iff.2 ⟨nullable, Sweep.run_add hnullable more, first, FirstSweep.run_add hfirst more, hm⟩

/-- The sweeps end, and make tables that agree with the prediction table. -/
theorem exists_firstMap_eq (g : Grammar) :
    ∃ m, (∀ limit, g.rules.size * (g.terminals.length + 1) < limit → g.firstMap limit = some m) ∧ m.Agrees g.prediction := by
  obtain ⟨nullable, hnullable⟩ := g.exists_run_productions Production.isNullable
  obtain ⟨first, hfirst⟩ := g.exists_firstBySweeps_eq nullable
  have hmem := mem_nullableBySweeps_iff (hnullable _ (Nat.lt_succ_self _))
  refine ⟨g.tabulate nullable first, fun limit hlimit => ?_, agrees_tabulate hmem (hfirst _ (Nat.lt_succ_self _))⟩
  rw [Nat.mul_succ] at hlimit
  exact firstMap_eq_some_iff.2 ⟨nullable, hnullable limit (by omega), first, hfirst limit (by omega), rfl⟩

/-- FIRST and the prediction table, as they are made by sweeps, tell what derivations do. The sweeps end after at most as many as
the limit says, and tables that are made under any limit are these. They agree with the prediction table that is defined without
sweeps. A character is in FIRST of a nonterminal, declared or not, when the nonterminal derives something that begins with it; a
nonterminal, or the production at a place, can vanish when it derives the empty word. The candidates before a character are, in
ascending order, the places of the productions that derive something that begins with it or the empty word; at the end of the
input they are those of the productions that derive the empty word. -/
theorem firstMap_exact (g : Grammar) :
    ∃ m, (∀ limit, g.rules.size * (g.terminals.length + 1) < limit → g.firstMap limit = some m) ∧
      (∀ limit m', g.firstMap limit = some m' → m' = m) ∧ m.Agrees g.prediction ∧
      ∀ nt c, (c ∈ m.firstOf nt ↔ ∃ rest, g.Derives [.nonterminal nt] (.terminal c :: rest)) ∧
        (m.isNullable nt = true ↔ g.Derives [.nonterminal nt] []) ∧
        (∀ index, m.productionNullable nt index = true ↔ ∃ p, (g.productionsOf nt)[index]? = some p ∧ g.Derives p []) ∧
        ((m.candidates nt (some c)).Pairwise (· < ·) ∧
          ∀ index, index ∈ m.candidates nt (some c) ↔
            ∃ p, (g.productionsOf nt)[index]? = some p ∧ ((∃ rest, g.Derives p (.terminal c :: rest)) ∨ g.Derives p [])) ∧
        (m.candidates nt none).Pairwise (· < ·) ∧
          ∀ index, index ∈ m.candidates nt none ↔ ∃ p, (g.productionsOf nt)[index]? = some p ∧ g.Derives p [] := by
  obtain ⟨m, hm, hagrees⟩ := g.exists_firstMap_eq
  refine ⟨m, hm, fun limit m' hm' => ?_, hagrees, fun nt c => ?_⟩
  · have hmore := firstMap_add hm' (g.rules.size * (g.terminals.length + 1) + 1)
    rw [hm _ (by omega)] at hmore
    exact (Option.some.inj hmore).symm
  · simp only [hagrees.firstOf, hagrees.isNullable, hagrees.productionNullable, hagrees.candidates]
    exact prediction_exact g nt c

end Grammar

end TopDown
