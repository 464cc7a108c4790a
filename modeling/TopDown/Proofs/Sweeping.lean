import TopDown.Proofs.Nullable
import TopDown.Proofs.Trimming
import TopDown.Sweeping

/-!
# Sweeps find the least set

What is found changes while a sweep goes on, so a sweep is no operator on sets that could be iterated. But whatever is found
follows from what was found before it, and a sweep that finds nothing has tested every production against the same set, so the
set is closed. Until then every sweep finds another nonterminal of the grammar, so there is at most one sweep more than
nonterminals. A set that follows and is closed is the least one, which is what saturation finds.

Main statements: `Sweep.exists_run_eq` (sweeps end), `Sweep.mem_run_iff` and `Grammar.sweeping_exact`.
-/

namespace TopDown

namespace Sweep

variable {passes : List Nonterminal → Production → Bool} {rules : List (Nonterminal × Production)} {s : Sweep}

/-! ## One production -/

/-- Looking at a production leaves everything as it was, or its nonterminal was not found and its production passes the test. -/
theorem look_cases (passes : List Nonterminal → Production → Bool) (s : Sweep) (rule : Nonterminal × Production) :
    (look passes s rule = s ∧ (passes s.found rule.2 = true → rule.1 ∈ s.found)) ∨
      (look passes s rule = ⟨s.found ++ [rule.1], true⟩ ∧ rule.1 ∉ s.found ∧ passes s.found rule.2 = true) := by
  unfold look
  by_cases hfound : rule.1 ∈ s.found
  · simp [hfound]
  · by_cases hpasses : passes s.found rule.2 = true
    · simp [hfound, hpasses]
    · simp [hfound, hpasses]

/-! ## One sweep -/

/-- A sweep that has found something says so to its end. -/
theorem changed_foldl_look (h : s.changed = true) : (rules.foldl (look passes) s).changed = true := by
  induction rules generalizing s with
  | nil => exact h
  | cons rule rules ih =>
    rw [List.foldl_cons]
    rcases look_cases passes s rule with ⟨hlook, -⟩ | ⟨hlook, -⟩
    · rw [hlook]
      exact ih h
    · rw [hlook]
      exact ih rfl

/-- A sweep that finds nothing leaves the set as it was, and every production that passes the test is one of a nonterminal in
the set. -/
theorem foldl_look_of_not_changed (h : (rules.foldl (look passes) s).changed = false) :
    rules.foldl (look passes) s = s ∧ ∀ rule ∈ rules, passes s.found rule.2 = true → rule.1 ∈ s.found := by
  induction rules generalizing s with
  | nil => exact ⟨rfl, fun _ h => nomatch h⟩
  | cons rule rules ih =>
    rw [List.foldl_cons] at h ⊢
    rcases look_cases passes s rule with ⟨hlook, hrule⟩ | ⟨hlook, -⟩
    · rw [hlook] at h ⊢
      obtain ⟨hsame, hrules⟩ := ih h
      exact ⟨hsame, List.forall_mem_cons.2 ⟨hrule, hrules⟩⟩
    · rw [hlook, changed_foldl_look rfl] at h
      cases h

/-- What every production that passes the test carries to its nonterminal holds of all that is found. -/
theorem foldl_look_induction {holds : Nonterminal → Prop}
    (step : ∀ rule ∈ rules, ∀ found, (∀ nt ∈ found, holds nt) → passes found rule.2 = true → holds rule.1)
    (h : ∀ nt ∈ s.found, holds nt) : ∀ nt ∈ (rules.foldl (look passes) s).found, holds nt := by
  induction rules generalizing s with
  | nil => exact h
  | cons rule rules ih =>
    obtain ⟨hrule, hrules⟩ := List.forall_mem_cons.1 step
    rw [List.foldl_cons]
    rcases look_cases passes s rule with ⟨hlook, -⟩ | ⟨hlook, -, hpasses⟩
    · rw [hlook]
      exact ih hrules h
    · rw [hlook]
      refine ih hrules fun nt hnt => ?_
      rcases List.mem_append.1 hnt with hnt | hnt
      · exact h nt hnt
      · rw [List.mem_singleton.1 hnt]
        exact hrule s.found h hpasses

/-- Nothing is found twice. -/
theorem nodup_foldl_look (h : s.found.Nodup) : (rules.foldl (look passes) s).found.Nodup := by
  induction rules generalizing s with
  | nil => exact h
  | cons rule rules ih =>
    rw [List.foldl_cons]
    rcases look_cases passes s rule with ⟨hlook, -⟩ | ⟨hlook, hnew, -⟩
    · rw [hlook]
      exact ih h
    · rw [hlook]
      refine ih (List.nodup_append.2 ⟨h, List.nodup_singleton _, fun a ha b hb hab => hnew ?_⟩)
      rwa [← List.mem_singleton.1 hb, ← hab]

/-- Nothing is lost, and a sweep that finds something makes the set larger. -/
theorem length_foldl_look (passes : List Nonterminal → Production → Bool) (rules : List (Nonterminal × Production)) (s : Sweep) :
    s.found.length ≤ (rules.foldl (look passes) s).found.length ∧
      (s.changed = false → (rules.foldl (look passes) s).changed = true →
        s.found.length < (rules.foldl (look passes) s).found.length) := by
  induction rules generalizing s with
  | nil =>
    refine ⟨Nat.le_refl _, fun hs hchanged => ?_⟩
    rw [List.foldl_nil, hs] at hchanged
    cases hchanged
  | cons rule rules ih =>
    rw [List.foldl_cons]
    rcases look_cases passes s rule with ⟨hlook, -⟩ | ⟨hlook, -⟩
    · rw [hlook]
      exact ih s
    · rw [hlook]
      have hle := (ih ⟨s.found ++ [rule.1], true⟩).1
      rw [List.length_append, List.length_singleton] at hle
      exact ⟨by omega, fun _ _ => by omega⟩

/-! ## All sweeps -/

variable {limit : Nat} {found result : List Nonterminal}

/-- When the sweeps have ended, every production that passes the test is one of a nonterminal that was found. -/
theorem closed_of_run (h : run passes rules limit found = some result) :
    ∀ rule ∈ rules, passes result rule.2 = true → rule.1 ∈ result := by
  induction limit generalizing found with
  | zero => cases h
  | succ limit ih =>
    simp only [run] at h
    split at h
    · exact ih h
    · rename_i hchanged
      obtain ⟨hsame, hclosed⟩ := foldl_look_of_not_changed (Bool.eq_false_iff.2 hchanged)
      cases h
      rw [sweep, hsame]
      exact hclosed

/-- What every production that passes the test carries to its nonterminal holds of all that the sweeps find. -/
theorem run_induction {holds : Nonterminal → Prop}
    (step : ∀ rule ∈ rules, ∀ found, (∀ nt ∈ found, holds nt) → passes found rule.2 = true → holds rule.1)
    (hfound : ∀ nt ∈ found, holds nt) (h : run passes rules limit found = some result) : ∀ nt ∈ result, holds nt := by
  induction limit generalizing found with
  | zero => cases h
  | succ limit ih =>
    have hsweep : ∀ nt ∈ (sweep passes rules found).found, holds nt := foldl_look_induction step hfound
    simp only [run] at h
    split at h
    · exact ih hsweep h
    · cases h
      exact hsweep

/-- More sweeps than there are nonterminals still to be found are enough. -/
theorem exists_run_eq {heads : List Nonterminal} (hrules : ∀ rule ∈ rules, rule.1 ∈ heads) (hnodup : found.Nodup)
    (hfound : ∀ nt ∈ found, nt ∈ heads) (hlimit : heads.length < found.length + limit) :
    ∃ result, run passes rules limit found = some result := by
  induction limit generalizing found with
  | zero =>
    have hle := hnodup.length_le_of_subset hfound
    omega
  | succ limit ih =>
    simp only [run]
    split
    · rename_i hchanged
      have hlt := (length_foldl_look passes rules ⟨found, false⟩).2 rfl hchanged
      have hsweep : ∀ nt ∈ (sweep passes rules found).found, nt ∈ heads :=
        foldl_look_induction (fun rule hrule _ _ _ => hrules rule hrule) hfound
      refine ih (nodup_foldl_look hnodup) hsweep ?_
      rw [sweep]
      simp only at hlt
      omega
    · exact ⟨_, rfl⟩

/-- Sweeps that have ended would not go on under a larger limit. -/
theorem run_add (h : run passes rules limit found = some result) (more : Nat) :
    run passes rules (limit + more) found = some result := by
  induction limit generalizing found with
  | zero => cases h
  | succ limit ih =>
    rw [Nat.add_right_comm]
    simp only [run] at h ⊢
    split at h
    · rename_i hchanged
      rw [if_pos hchanged]
      exact ih h
    · rename_i hchanged
      rw [if_neg hchanged]
      exact h

/-- When the test is whether a body was found, sweeps find what saturation finds. -/
theorem mem_run_iff {body? : Production → Option (List Nonterminal)}
    (hpasses : ∀ found p, passes found p = true ↔ ∃ body, body? p = some body ∧ ∀ nt ∈ body, nt ∈ found)
    (h : run passes rules limit [] = some result) (nt : Nonterminal) :
    nt ∈ result ↔ nt ∈ saturate (rules.filterMap fun rule => (body? rule.2).map (Clause.mk rule.1)) := by
  constructor
  · refine run_induction (fun rule hrule found hfound hp => ?_) (fun _ h => nomatch h) h nt
    obtain ⟨body, hbody, hall⟩ := (hpasses found rule.2).1 hp
    refine mem_saturate (c := ⟨rule.1, body⟩) (List.mem_filterMap.2 ⟨rule, hrule, ?_⟩) fun m hm => hfound m (hall m hm)
    rw [hbody, Option.map_some]
  · refine saturate_induction (fun c hc hbody => ?_) nt
    obtain ⟨rule, hrule, hmap⟩ := List.mem_filterMap.1 hc
    obtain ⟨body, hsome, rfl⟩ := Option.map_eq_some_iff.1 hmap
    exact closed_of_run h rule hrule ((hpasses result rule.2).2 ⟨body, hsome, hbody⟩)

end Sweep

namespace Grammar

/-- The productions of a grammar are those of its declared nonterminals, so one sweep more than there are of them is enough. -/
theorem exists_run_productions (g : Grammar) (passes : List Nonterminal → Production → Bool) :
    ∃ found, ∀ limit, g.rules.size < limit → Sweep.run passes g.rules.productions limit [] = some found := by
  have hrules : ∀ rule ∈ g.rules.productions, rule.1 ∈ g.declared := fun rule hrule =>
    Rules.mem_declared_of_mem_productionsOf (Rules.mem_productions.1 hrule)
  have hlimit : g.declared.length < ([] : List Nonterminal).length + (g.rules.size + 1) := by
    have hle := g.length_declared_le_size
    rw [List.length_nil]
    omega
  have hrun : ∃ found, Sweep.run passes g.rules.productions (g.rules.size + 1) [] = some found :=
    Sweep.exists_run_eq hrules List.nodup_nil (fun _ h => nomatch h) hlimit
  obtain ⟨found, hfound⟩ := hrun
  refine ⟨found, fun limit hlt => ?_⟩
  obtain ⟨more, rfl⟩ := Nat.exists_eq_add_of_le (Nat.succ_le_of_lt hlt)
  exact Sweep.run_add hfound more

/-- The nullable nonterminals are what sweeps find. -/
theorem mem_nullableBySweeps_iff {g : Grammar} {limit : Nat} {found : List Nonterminal}
    (h : g.nullableBySweeps limit = some found) (nt : Nonterminal) : nt ∈ found ↔ nt ∈ g.nullable := by
  refine Sweep.mem_run_iff (fun known p => ?_) h nt
  constructor
  · exact exists_of_isNullable
  · intro hp
    obtain ⟨nts, hnts, hall⟩ := hp
    rw [Production.isNullable_iff, Production.eq_map_of_onlyNonterminals? hnts]
    intro s hs
    obtain ⟨m, hm, rfl⟩ := List.mem_map.1 hs
    exact ⟨m, rfl, hall m hm⟩

/-- The productive nonterminals are what sweeps find. -/
theorem mem_productiveBySweeps_iff {g : Grammar} {limit : Nat} {found : List Nonterminal}
    (h : g.productiveBySweeps limit = some found) (nt : Nonterminal) : nt ∈ found ↔ nt ∈ g.productive := by
  have hpasses : ∀ known p, Production.isWithin known p = true ↔
      ∃ body, some (Production.nonterminals p) = some body ∧ ∀ nt ∈ body, nt ∈ known := by
    intro known p
    simp [Production.isWithin, List.all_eq_true]
  rw [Sweep.mem_run_iff hpasses h nt]
  simp only [Option.map_some, List.filterMap_eq_map', productive]

/-- Whatever a grammar mentions and however its productions lead in circles, sweeps end, and one sweep more than there are
declared nonterminals is enough. They find what saturation finds: the nonterminals from which the empty word is derived, and those
from which some word is. -/
theorem sweeping_exact (g : Grammar) :
    (∃ found, (∀ limit, g.rules.size < limit → g.nullableBySweeps limit = some found) ∧
      ∀ nt, (nt ∈ found ↔ nt ∈ g.nullable) ∧ (nt ∈ found ↔ g.Generates nt [])) ∧
    ∃ found, (∀ limit, g.rules.size < limit → g.productiveBySweeps limit = some found) ∧
      ∀ nt, (nt ∈ found ↔ nt ∈ g.productive) ∧ (nt ∈ found ↔ ∃ word, g.Generates nt word) := by
  constructor
  · obtain ⟨found, hfound⟩ := g.exists_run_productions Production.isNullable
    have hmem := mem_nullableBySweeps_iff (hfound _ (Nat.lt_succ_self _))
    exact ⟨found, hfound, fun nt => ⟨hmem nt, (hmem nt).trans mem_nullable_iff⟩⟩
  · obtain ⟨found, hfound⟩ := g.exists_run_productions Production.isWithin
    have hmem := mem_productiveBySweeps_iff (hfound _ (Nat.lt_succ_self _))
    exact ⟨found, hfound, fun nt => ⟨hmem nt, (hmem nt).trans mem_productive_iff⟩⟩

/-- Where every nonterminal needs a later one, each sweep finds one of them, and one more finds none. What is not declared is
never found. -/
example : Grammar.nullableBySweeps
    ⟨0, .ofList [(0, [[.nonterminal 1, .nonterminal 1], [.nonterminal 7]]), (1, [[.nonterminal 2]]), (2, [[]])], .empty⟩ 4 =
      some [2, 1, 0] := by decide

end Grammar

end TopDown
