import Mathlib.Data.List.Nodup
import Mathlib.Logic.Function.Iterate
import TopDown.Grammar.Fresh

/-!
# Fresh names

The candidates for a fresh name are all different, so among one more of them than the table has entries there is one that the
table does not use. A nonterminal that is added therefore takes no name from another, and its name is that of its origin with
apostrophes behind it.

Main statements: `Names.uses_unused` and `Grammar.names_addFresh`.
-/

namespace TopDown

namespace Names

/-- A candidate is as much longer than the name as it has apostrophes. -/
theorem length_iterate_push (name : String) (k : Nat) : ((String.push · '\'')^[k] name).length = name.length + k := by
  induction k with
  | zero => rfl
  | succ k ih => rw [Function.iterate_succ_apply', String.length_push, ih, Nat.add_assoc]

/-- When the name that was chosen is in use, so are all candidates. -/
theorem uses_of_uses_unusedFrom {n : Names} {fuel : Nat} {name : String} (h : n.uses (n.unusedFrom fuel name) = true) :
    ∀ k ≤ fuel, n.uses ((String.push · '\'')^[k] name) = true := by
  induction fuel generalizing name with
  | zero =>
    intro k hk
    obtain rfl := Nat.le_zero.1 hk
    exact h
  | succ fuel ih =>
    rw [unusedFrom] at h
    split at h
    · rename_i hname
      intro k hk
      cases k with
      | zero => exact hname
      | succ k => exact ih h k (Nat.le_of_succ_le_succ hk)
    · rename_i hname
      exact absurd h hname

/-- The name that is chosen is not in use. -/
theorem uses_unused (n : Names) (name : String) : n.uses (n.unused name) = false := by
  refine Bool.eq_false_iff.2 fun h => ?_
  have hused := uses_of_uses_unusedFrom h
  let candidates := (List.range (n.entries.length + 1)).map fun k => (String.push · '\'')^[k] name
  have hnodup : candidates.Nodup := by
    refine List.nodup_range.map_on fun j _ k _ hjk => ?_
    have hlength := congrArg String.length hjk
    simp only [length_iterate_push] at hlength
    omega
  have hsub : candidates ⊆ n.entries.map Prod.snd := by
    intro candidate hcandidate
    obtain ⟨k, hk, rfl⟩ := List.mem_map.1 hcandidate
    exact List.contains_iff_mem.1 (hused k (Nat.le_of_lt_succ (List.mem_range.1 hk)))
  have hle := hnodup.length_le_of_subset hsub
  simp only [candidates, List.length_map, List.length_range] at hle
  omega

/-- What holds of a name and is kept by one apostrophe more holds of the name that is chosen. -/
theorem unused_induction {Q : String → Prop} (hpush : ∀ name, Q name → Q (name.push '\'')) {n : Names} {name : String}
    (h : Q name) : Q (n.unused name) := by
  have hfrom : ∀ fuel name, Q name → Q (n.unusedFrom fuel name) := by
    intro fuel
    induction fuel with
    | zero => exact fun _ h => h
    | succ fuel ih =>
      intro name h
      rw [unusedFrom]
      split
      · exact ih _ (hpush name h)
      · exact h
  exact hfrom _ name h

theorem uses_of_get? {n : Names} {nt : Nonterminal} {name : String} (h : n.get? nt = some name) : n.uses name = true :=
  List.contains_iff_mem.2 (List.mem_map.2 ⟨(nt, name), Table.mem_of_get?_eq_some h, rfl⟩)

end Names

namespace Grammar

/-- A fresh nonterminal has the fresh name, and no other nonterminal loses its own. -/
theorem names_addFresh (g : Grammar) (origin m : Nonterminal) (ps : List Production) :
    (g.addFresh origin ps).names.get? m = if m = g.freshNonterminal then some (g.freshName origin) else g.names.get? m := by
  have hnone : g.names.get? m ≠ some (g.freshName origin) := by
    intro h
    have hused := Names.uses_of_get? h
    rw [freshName, Names.uses_unused] at hused
    cases hused
  have hget := g.names.get?_insert g.freshNonterminal m (g.freshName origin)
  rwa [if_neg hnone] at hget

end Grammar

end TopDown
