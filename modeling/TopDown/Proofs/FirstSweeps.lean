import Mathlib.Algebra.Order.BigOperators.Group.List
import Mathlib.Algebra.Order.Ring.Nat
import TopDown.FirstMap
import TopDown.Proofs.Prediction
import TopDown.Proofs.Sweeping

/-!
# FIRST by sweeps, judged

FIRST of a nonterminal changes while a sweep goes on, and what one production adds to it the next can use. Whatever is added is a
place that a production can begin at, judged by what was known before, and a sweep that adds nothing has judged all productions by
the same sets. The sets are kept in ascending order, so that one with more places is a longer list. Together they have at most as
many places as there are pairs of a nonterminal and a character, and every sweep but the last adds one. When the sweeps have
ended, the places of a nonterminal are those of the characters that saturation lets it begin with.

Main statements: `FirstSweep.exists_run_eq` (sweeps end), `Grammar.mem_firstBySweeps_iff` and `Grammar.mem_firstCharacters_iff`.
-/

namespace TopDown

/-! ## Sets of places -/

namespace Places

theorem mem_union_iff {known more : List Nat} {place : Nat} :
    place ∈ union known more ↔ place ∈ known ∨ place ∈ more := by
  induction more generalizing known with
  | nil => simp [union]
  | cons a more ih =>
    have hinsert : place ∈ Ascending.insert id a known ↔ place = a ∨ place ∈ known := Ascending.mem_insert_iff fun _ _ h => h
    rw [union, List.foldl_cons, ← union, ih, hinsert, List.mem_cons]
    tauto

theorem sorted_union {known : List Nat} (more : List Nat) (h : Ascending.Sorted id known) :
    Ascending.Sorted id (union known more) := by
  induction more generalizing known with
  | nil => exact h
  | cons a more ih => exact ih (Ascending.sorted_insert a h)

/-- A set loses nothing when another is added. -/
theorem subperm_union {known : List Nat} (more : List Nat) (h : Ascending.Sorted id known) :
    known.Subperm (union known more) :=
  List.subperm_of_subset h.nodup fun _ hk => mem_union_iff.2 (Or.inl hk)

/-- A set that gets no larger had all that was added. -/
theorem mem_of_length_union_le {known more : List Nat} (h : Ascending.Sorted id known)
    (hlength : (union known more).length ≤ known.length) : ∀ place ∈ more, place ∈ known := by
  intro place hplace
  have hperm := (subperm_union more h).perm_of_length_le hlength
  exact hperm.mem_iff.2 (mem_union_iff.2 (Or.inr hplace))

end Places

theorem Table.get?_put {β : Type} (nt k : Nonterminal) (b : β) (t : Table β) :
    get? k (put nt b t) = if k = nt then some b else get? k t := by
  induction t with
  | nil => simp [put, get?_cons]
  | cons entry t ih =>
    obtain ⟨m, a⟩ := entry
    unfold put
    by_cases hm : nt = m
    · subst hm
      by_cases hk : k = nt <;> simp [get?_cons, hk]
    · by_cases hk : k = nt
      · subst hk
        simp [get?_cons, hm, ih]
      · simp [get?_cons, hm, hk, ih]

theorem placesOf_put (nt k : Nonterminal) (places : List Nat) (first : Table (List Nat)) :
    placesOf (Table.put nt places first) k = if k = nt then places else placesOf first k := by
  rw [placesOf, Table.get?_put]
  split <;> rfl

/-! ## One production -/

/-- A production can begin with the character at a place, as far as FIRST is known. -/
def Production.BeginsAt (terminals : List Char) (nullable : List Nonterminal) (first : Table (List Nat)) (p : Production)
    (place : Nat) : Prop :=
  (∃ c, leadingTerminal? nullable p = some c ∧ terminals.idxOf? c = some place) ∨
    ∃ lead ∈ leadingNonterminals nullable p, place ∈ placesOf first lead

variable {terminals : List Char} {nullable : List Nonterminal}

/-- The more is known of FIRST, the more places a production can begin at. -/
theorem Production.BeginsAt.mono {first first' : Table (List Nat)} {p : Production} {place : Nat}
    (h : BeginsAt terminals nullable first p place)
    (hle : ∀ nt, ∀ place ∈ placesOf first nt, place ∈ placesOf first' nt) : BeginsAt terminals nullable first' p place :=
  h.imp id fun ⟨lead, hlead, hplace⟩ => ⟨lead, hlead, hle lead place hplace⟩

/-- The walk along a production adds the places that it can begin at. -/
theorem Production.mem_firstPlaces_iff {first : Table (List Nat)} {places : List Nat} {p : Production} {place : Nat} :
    place ∈ firstPlaces terminals nullable first places p ↔ place ∈ places ∨ BeginsAt terminals nullable first p place := by
  induction p generalizing places with
  | nil => simp [firstPlaces, BeginsAt, leadingTerminal?, leadingNonterminals]
  | cons s p ih =>
    cases s with
    | terminal c =>
      rw [firstPlaces]
      cases hc : terminals.idxOf? c with
      | none => simp [BeginsAt, leadingTerminal?, leadingNonterminals, hc]
      | some a =>
        have hinsert : place ∈ Ascending.insert id a places ↔ place = a ∨ place ∈ places :=
          Ascending.mem_insert_iff fun _ _ h => h
        simp only [hinsert, BeginsAt, leadingTerminal?, leadingNonterminals, Option.some.injEq, exists_eq_left', hc,
          List.not_mem_nil, false_and, exists_false, or_false]
        rw [or_comm, eq_comm]
    | nonterminal nt =>
      rw [firstPlaces]
      split
      · rename_i hnt
        simp only [ih, Places.mem_union_iff, BeginsAt, leadingTerminal?, leadingNonterminals, hnt, if_true,
          List.exists_mem_cons_iff]
        rw [or_assoc, or_left_comm (a := place ∈ placesOf first nt)]
      · rename_i hnt
        have hnt : nt ∉ nullable := fun h => hnt (List.contains_iff_mem.2 h)
        simp [Places.mem_union_iff, BeginsAt, leadingTerminal?, leadingNonterminals, hnt]

namespace FirstSweep

variable {rules : List (Nonterminal × Production)} {s : FirstSweep}

/-- FIRST of every nonterminal is a set of places in a list. -/
structure Sets (bound : Nat) (first : Table (List Nat)) : Prop where
  sorted : ∀ nt, Ascending.Sorted id (placesOf first nt)
  lt : ∀ nt, ∀ place ∈ placesOf first nt, place < bound

/-- What is known after looking at a production. -/
theorem mem_placesOf_look_iff {rule : Nonterminal × Production} {nt : Nonterminal} {place : Nat} :
    place ∈ placesOf (look terminals nullable s rule).first nt ↔
      place ∈ placesOf s.first nt ∨ nt = rule.1 ∧ Production.BeginsAt terminals nullable s.first rule.2 place := by
  simp only [look, placesOf_put]
  split
  · rename_i hnt
    rw [Places.mem_union_iff, Production.mem_firstPlaces_iff, hnt]
    simp
  · rename_i hnt
    simp [hnt]

/-- Looking at a production keeps the sets sets. -/
theorem Sets.look (h : Sets terminals.length s.first) (rule : Nonterminal × Production) :
    Sets terminals.length (look terminals nullable s rule).first where
  sorted nt := by
    simp only [FirstSweep.look, placesOf_put]
    split
    · exact Places.sorted_union _ (h.sorted rule.1)
    · exact h.sorted nt
  lt nt place hplace := by
    rcases mem_placesOf_look_iff.1 hplace with hplace | ⟨-, ⟨c, -, hc⟩ | ⟨lead, -, hlead⟩⟩
    · exact h.lt nt place hplace
    · obtain ⟨hlt, -⟩ := List.idxOf?_eq_some_iff.1 hc
      exact hlt
    · exact h.lt lead place hlead

/-- Looking at a production makes no set smaller. -/
theorem length_placesOf_look {bound : Nat} (h : Sets bound s.first) (rule : Nonterminal × Production) (nt : Nonterminal) :
    (placesOf s.first nt).length ≤ (placesOf (look terminals nullable s rule).first nt).length :=
  (List.subperm_of_subset (h.sorted nt).nodup fun _ hp => mem_placesOf_look_iff.2 (Or.inl hp)).length_le

/-- Looking at a production tells nothing new, or makes FIRST of its nonterminal larger. -/
theorem look_cases {bound : Nat} (h : Sets bound s.first) (rule : Nonterminal × Production) :
    ((look terminals nullable s rule).changed = s.changed ∧
        ∀ place, Production.BeginsAt terminals nullable s.first rule.2 place → place ∈ placesOf s.first rule.1) ∨
      ((look terminals nullable s rule).changed = true ∧
        (placesOf s.first rule.1).length < (placesOf (look terminals nullable s rule).first rule.1).length) := by
  have hunion := (Places.subperm_union (Production.firstPlaces terminals nullable s.first [] rule.2) (h.sorted rule.1)).length_le
  simp only [look, placesOf_put, if_true]
  rcases Nat.eq_or_lt_of_le hunion with heq | hlt
  · refine Or.inl ⟨by simp [← heq], fun place hplace => ?_⟩
    exact Places.mem_of_length_union_le (h.sorted rule.1) heq.ge place (Production.mem_firstPlaces_iff.2 (Or.inr hplace))
  · exact Or.inr ⟨by simp [hlt.ne'], hlt⟩

/-! ## One sweep -/

/-- A sweep that has found something says so to its end. -/
theorem changed_foldl_look (h : s.changed = true) : (rules.foldl (look terminals nullable) s).changed = true := by
  induction rules generalizing s with
  | nil => exact h
  | cons rule rules ih => exact ih (by simp [look, h])

theorem Sets.foldl (h : Sets terminals.length s.first) (rules : List (Nonterminal × Production)) :
    Sets terminals.length (rules.foldl (FirstSweep.look terminals nullable) s).first := by
  induction rules generalizing s with
  | nil => exact h
  | cons rule rules ih => exact ih (h.look rule)

/-- A sweep that finds nothing leaves the sets as they were, and they have all places that the productions can begin at. -/
theorem foldl_look_of_not_changed (hsets : Sets terminals.length s.first)
    (h : (rules.foldl (look terminals nullable) s).changed = false) :
    (∀ nt, ∀ place ∈ placesOf (rules.foldl (look terminals nullable) s).first nt, place ∈ placesOf s.first nt) ∧
      ∀ rule ∈ rules, ∀ place,
        Production.BeginsAt terminals nullable (rules.foldl (look terminals nullable) s).first rule.2 place →
          place ∈ placesOf s.first rule.1 := by
  induction rules generalizing s with
  | nil => exact ⟨fun _ _ hp => hp, fun _ h => nomatch h⟩
  | cons rule rules ih =>
    rw [List.foldl_cons] at h ⊢
    obtain ⟨hsame, hrules⟩ := ih (hsets.look rule) h
    rcases look_cases hsets rule with ⟨-, hrule⟩ | ⟨hlook, -⟩
    · have hback : ∀ nt, ∀ place ∈ placesOf (look terminals nullable s rule).first nt, place ∈ placesOf s.first nt := by
        intro nt place hplace
        rcases mem_placesOf_look_iff.1 hplace with hplace | ⟨rfl, hbegins⟩
        · exact hplace
        · exact hrule place hbegins
      have hall : ∀ nt, ∀ place ∈ placesOf (rules.foldl (look terminals nullable) (look terminals nullable s rule)).first nt,
          place ∈ placesOf s.first nt := fun nt place hplace => hback nt place (hsame nt place hplace)
      exact ⟨hall, List.forall_mem_cons.2 ⟨fun place hbegins => hrule place (hbegins.mono hall),
        fun other hother place hbegins => hback other.1 place (hrules other hother place hbegins)⟩⟩
    · rw [changed_foldl_look hlook] at h
      cases h

/-- A sweep loses nothing. -/
theorem mem_foldl_look (nt : Nonterminal) (place : Nat) (h : place ∈ placesOf s.first nt) :
    place ∈ placesOf (rules.foldl (look terminals nullable) s).first nt := by
  induction rules generalizing s with
  | nil => exact h
  | cons rule rules ih => exact ih (mem_placesOf_look_iff.2 (Or.inl h))

/-- What every production carries to its nonterminal holds of all that is found. -/
theorem foldl_look_induction {holds : Nonterminal → Nat → Prop}
    (step : ∀ rule ∈ rules, ∀ first, (∀ nt, ∀ place ∈ placesOf first nt, holds nt place) →
      ∀ place, Production.BeginsAt terminals nullable first rule.2 place → holds rule.1 place)
    (h : ∀ nt, ∀ place ∈ placesOf s.first nt, holds nt place) :
    ∀ nt, ∀ place ∈ placesOf (rules.foldl (look terminals nullable) s).first nt, holds nt place := by
  induction rules generalizing s with
  | nil => exact h
  | cons rule rules ih =>
    obtain ⟨hrule, hrules⟩ := List.forall_mem_cons.1 step
    refine ih hrules fun nt place hplace => ?_
    rcases mem_placesOf_look_iff.1 hplace with hplace | ⟨rfl, hbegins⟩
    · exact h nt place hplace
    · exact hrule s.first h place hbegins

/-- How many places FIRST of some nonterminals has together. -/
def size (heads : List Nonterminal) (first : Table (List Nat)) : Nat := (heads.map fun nt => (placesOf first nt).length).sum

/-- The sets have no more places together than all characters for every nonterminal. -/
theorem Sets.size_le {bound : Nat} {first : Table (List Nat)} (h : Sets bound first) (heads : List Nonterminal) :
    size heads first ≤ heads.length * bound := by
  have hle : ∀ n ∈ heads.map fun nt => (placesOf first nt).length, n ≤ bound := by
    intro n hn
    obtain ⟨nt, -, rfl⟩ := List.mem_map.1 hn
    have hsubset : placesOf first nt ⊆ List.range bound := fun place hplace => List.mem_range.2 (h.lt nt place hplace)
    simpa using (h.sorted nt).nodup.length_le_of_subset hsubset
  have hsum := List.sum_le_card_nsmul _ bound hle
  rwa [List.length_map, nsmul_eq_mul, Nat.cast_id] at hsum

/-- Nothing is lost, and a sweep that finds something makes the sets larger. -/
theorem size_foldl_look {heads : List Nonterminal} (hrules : ∀ rule ∈ rules, rule.1 ∈ heads)
    (hsets : Sets terminals.length s.first) :
    size heads s.first ≤ size heads (rules.foldl (look terminals nullable) s).first ∧
      (s.changed = false → (rules.foldl (look terminals nullable) s).changed = true →
        size heads s.first < size heads (rules.foldl (look terminals nullable) s).first) := by
  induction rules generalizing s with
  | nil =>
    refine ⟨Nat.le_refl _, fun hs hchanged => ?_⟩
    rw [List.foldl_nil, hs] at hchanged
    cases hchanged
  | cons rule rules ih =>
    obtain ⟨hrule, hrules⟩ := List.forall_mem_cons.1 hrules
    obtain ⟨hle, hlt⟩ := ih hrules (hsets.look rule)
    have hlook : size heads s.first ≤ size heads (look terminals nullable s rule).first :=
      List.sum_le_sum fun nt _ => length_placesOf_look hsets rule nt
    rw [List.foldl_cons]
    refine ⟨Nat.le_trans hlook hle, fun hs hchanged => ?_⟩
    rcases look_cases hsets rule with ⟨hsame, -⟩ | ⟨-, hlarger⟩
    · exact Nat.lt_of_le_of_lt hlook (hlt (hsame.trans hs) hchanged)
    · have hgrows : size heads s.first < size heads (look terminals nullable s rule).first :=
        List.sum_lt_sum _ _ (fun nt _ => length_placesOf_look hsets rule nt) ⟨rule.1, hrule, hlarger⟩
      exact Nat.lt_of_lt_of_le hgrows hle

/-! ## All sweeps -/

variable {limit : Nat} {first result : Table (List Nat)}

/-- When the sweeps have ended, FIRST has all places that the productions can begin at. -/
theorem closed_of_run (hsets : Sets terminals.length first) (h : run terminals nullable rules limit first = some result) :
    ∀ rule ∈ rules, ∀ place, Production.BeginsAt terminals nullable result rule.2 place → place ∈ placesOf result rule.1 := by
  induction limit generalizing first with
  | zero => cases h
  | succ limit ih =>
    simp only [run] at h
    split at h
    · exact ih (hsets.foldl rules) h
    · rename_i hchanged
      obtain ⟨-, hclosed⟩ := foldl_look_of_not_changed hsets (Bool.eq_false_iff.2 hchanged)
      cases h
      exact fun rule hrule place hbegins => mem_foldl_look rule.1 place (hclosed rule hrule place hbegins)

/-- What every production carries to its nonterminal holds of all that the sweeps find. -/
theorem run_induction {holds : Nonterminal → Nat → Prop}
    (step : ∀ rule ∈ rules, ∀ first, (∀ nt, ∀ place ∈ placesOf first nt, holds nt place) →
      ∀ place, Production.BeginsAt terminals nullable first rule.2 place → holds rule.1 place)
    (hfirst : ∀ nt, ∀ place ∈ placesOf first nt, holds nt place)
    (h : run terminals nullable rules limit first = some result) : ∀ nt, ∀ place ∈ placesOf result nt, holds nt place := by
  induction limit generalizing first with
  | zero => cases h
  | succ limit ih =>
    have hsweep : ∀ nt, ∀ place ∈ placesOf (sweep terminals nullable rules first).first nt, holds nt place :=
      foldl_look_induction step hfirst
    simp only [run] at h
    split at h
    · exact ih hsweep h
    · cases h
      exact hsweep

/-- More sweeps than there are places still to be found are enough. -/
theorem exists_run_eq {heads : List Nonterminal} (hrules : ∀ rule ∈ rules, rule.1 ∈ heads)
    (hsets : Sets terminals.length first) (hlimit : heads.length * terminals.length < size heads first + limit) :
    ∃ result, run terminals nullable rules limit first = some result := by
  induction limit generalizing first with
  | zero =>
    have hle := hsets.size_le heads
    omega
  | succ limit ih =>
    simp only [run]
    split
    · rename_i hchanged
      have hlt : size heads first < size heads (sweep terminals nullable rules first).first :=
        (size_foldl_look (s := ⟨first, false⟩) hrules hsets).2 rfl hchanged
      exact ih (hsets.foldl rules) (by omega)
    · exact ⟨_, rfl⟩

/-- Sweeps that have ended would not go on under a larger limit. -/
theorem run_add (h : run terminals nullable rules limit first = some result) (more : Nat) :
    run terminals nullable rules (limit + more) first = some result := by
  induction limit generalizing first with
  | zero => cases h
  | succ limit ih =>
    rw [Nat.add_right_comm]
    simp only [run] at h ⊢
    split at h
    · rename_i hchanged
      rw [if_pos hchanged]
      exact ih h
    · rename_i hchanged
      rw [if_neg hchanged]
      exact h

end FirstSweep

namespace Grammar

variable {g : Grammar}

/-! ## FIRST of a grammar -/

theorem idxOf?_terminals_eq_some_iff {c : Char} {place : Nat} :
    g.terminals.idxOf? c = some place ↔ g.terminals[place]? = some c := by
  have hnodup : g.terminals.Nodup := Ascending.nodup_ofList _ _
  rw [List.idxOf?_eq_some_iff, List.getElem?_eq_some_iff]
  refine exists_congr fun hplace => and_iff_left_of_imp ?_
  rintro rfl j hj heq
  exact Nat.ne_of_lt hj (hnodup.getElem_inj_iff.1 heq)

theorem placesOf_start (g : Grammar) (nt : Nonterminal) : placesOf (g.declared.map fun nt => (nt, [])) nt = [] := by
  rw [placesOf, Table.get?_map_pair]
  split <;> rfl

theorem sets_start (g : Grammar) : FirstSweep.Sets g.terminals.length (g.declared.map fun nt => (nt, [])) where
  sorted nt := by
    rw [placesOf_start]
    exact List.Pairwise.nil
  lt nt place hplace := by
    rw [placesOf_start] at hplace
    cases hplace

/-- No more sweeps are made than there are pairs of a nonterminal and a character, and one more. -/
theorem exists_firstBySweeps_eq (g : Grammar) (nullable : List Nonterminal) :
    ∃ first, ∀ limit, g.rules.size * g.terminals.length < limit → g.firstBySweeps nullable limit = some first := by
  have hrules : ∀ rule ∈ g.rules.productions, rule.1 ∈ g.declared := fun rule hrule =>
    Rules.mem_declared_of_mem_productionsOf (Rules.mem_productions.1 hrule)
  have hpairs : g.declared.length * g.terminals.length ≤ g.rules.size * g.terminals.length :=
    Nat.mul_le_mul_right _ g.length_declared_le_size
  have hrun : ∃ first, g.firstBySweeps nullable (g.rules.size * g.terminals.length + 1) = some first :=
    FirstSweep.exists_run_eq hrules g.sets_start (by omega)
  obtain ⟨first, hfirst⟩ := hrun
  refine ⟨first, fun limit hlimit => ?_⟩
  obtain ⟨more, rfl⟩ := Nat.exists_eq_add_of_le (Nat.succ_le_of_lt hlimit)
  exact FirstSweep.run_add hfirst more

/-- The sweeps find the places of the characters that a nonterminal can begin with. -/
theorem mem_firstBySweeps_iff {nullable : List Nonterminal} {limit : Nat} {first : Table (List Nat)}
    (h : g.firstBySweeps nullable limit = some first) {nt : Nonterminal} {place : Nat} :
    place ∈ placesOf first nt ↔ ∃ c, g.terminals[place]? = some c ∧ nt ∈ g.beginningWith nullable c := by
  constructor
  · intro hplace
    have hsound : ∀ nt, ∀ place ∈ placesOf first nt, ∃ c, g.terminals[place]? = some c ∧ nt ∈ g.beginningWith nullable c := by
      refine FirstSweep.run_induction (fun rule hrule first hfirst place hbegins => ?_) (fun nt place hplace => ?_) h
      · have hp := Rules.mem_productions.1 hrule
        rcases hbegins with ⟨c, hc, hplace⟩ | ⟨lead, hlead, hplace⟩
        · exact ⟨c, idxOf?_terminals_eq_some_iff.1 hplace, mem_beginningWith hp (Or.inl hc)⟩
        · obtain ⟨c, hc, hbegins⟩ := hfirst lead place hplace
          exact ⟨c, hc, mem_beginningWith hp (Or.inr ⟨lead, hlead, hbegins⟩)⟩
      · rw [placesOf_start] at hplace
        cases hplace
    exact hsound nt place hplace
  · rintro ⟨c, hc, hnt⟩
    have hcomplete : ∀ nt ∈ g.beginningWith nullable c, place ∈ placesOf first nt := by
      refine saturate_induction fun clause hclause hbody => ?_
      obtain ⟨rule, hrule, hclause⟩ := List.mem_flatMap.1 hclause
      have hclosed := FirstSweep.closed_of_run g.sets_start h rule hrule place
      rcases mem_beginClauses.1 hclause with ⟨hlead, rfl⟩ | ⟨lead, hlead, rfl⟩
      · exact hclosed (Or.inl ⟨c, hlead, idxOf?_terminals_eq_some_iff.2 hc⟩)
      · exact hclosed (Or.inr ⟨lead, hlead, hbody lead List.mem_cons_self⟩)
    exact hcomplete nt hnt

/-- With FIRST complete, the characters of a production are those that saturation finds. -/
theorem mem_firstCharacters_iff {nullable : List Nonterminal} {limit : Nat} {first : Table (List Nat)}
    (h : g.firstBySweeps nullable limit = some first) {nt : Nonterminal} {p : Production} (hp : p ∈ g.productionsOf nt)
    {c : Char} :
    c ∈ Production.firstCharacters g.terminals nullable first p ↔
      c ∈ firstOfProduction nullable (g.firstTable nullable) p := by
  rw [Production.firstCharacters, List.mem_filterMap, mem_firstOfProduction_iff]
  simp only [Production.mem_firstPlaces_iff, List.not_mem_nil, false_or]
  constructor
  · rintro ⟨place, ⟨d, hd, hplace⟩ | ⟨lead, hlead, hplace⟩, hc⟩
    · rw [idxOf?_terminals_eq_some_iff.1 hplace] at hc
      exact Or.inl (Option.some.inj hc ▸ hd)
    · obtain ⟨d, hd, hbegins⟩ := (mem_firstBySweeps_iff h).1 hplace
      rw [hd] at hc
      exact Or.inr ⟨lead, hlead, Option.some.inj hc ▸ hbegins⟩
  · intro hbegins
    obtain ⟨-, hc⟩ := declared_of_mem_beginningWith nt (mem_beginningWith hp hbegins)
    obtain ⟨place, hplace⟩ := List.mem_iff_getElem?.1 hc
    rcases hbegins with hlead | ⟨lead, hlead, hbegins⟩
    · exact ⟨place, Or.inl ⟨c, hlead, idxOf?_terminals_eq_some_iff.2 hplace⟩, hplace⟩
    · exact ⟨place, Or.inr ⟨lead, hlead, (mem_firstBySweeps_iff h).2 ⟨c, hplace, hbegins⟩⟩, hplace⟩

end Grammar

end TopDown
