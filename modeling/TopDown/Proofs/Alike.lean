import Mathlib.Data.List.Sort
import TopDown.Proofs.Distance
import TopDown.Proofs.Fresh
import TopDown.Proofs.LeftRecursion
import TopDown.Proofs.UnitRules

/-!
# Grammars that differ in order only

Two grammars are alike when they have the same start, the same names, and the same nonterminals with the same productions, in
whatever order. What a grammar generates does not depend on the order, and neither does anything that is found by saturation or
search: nullable, productive and reachable nonterminals, left recursion, the next fresh nonterminal and its name. A layer of a
breadth-first search is found in another order but has the same members, so that the order by distance, in which each layer is
sorted, is the same list.

Main statements: `agrees_iff`, `Alike.leftRecursive_eq` and `Alike.distanceOrder_eq`.
-/

namespace TopDown

/-! ## Lists with the same members -/

/-- Two lists have the same members, in any order and any number. -/
def SameMembers {α : Type} (l m : List α) : Prop := ∀ a, a ∈ l ↔ a ∈ m

namespace SameMembers

variable {α β : Type} {l m : List α}

theorem refl (l : List α) : SameMembers l l := fun _ => Iff.rfl

theorem symm (h : SameMembers l m) : SameMembers m l := fun a => (h a).symm

theorem eq_nil_iff (h : SameMembers l m) : l = [] ↔ m = [] := by
  rw [List.eq_nil_iff_forall_not_mem, List.eq_nil_iff_forall_not_mem]
  exact forall_congr' fun a => not_congr (h a)

theorem map (h : SameMembers l m) (f : α → β) : SameMembers (l.map f) (m.map f) := by
  intro b
  simp only [List.mem_map, h _]

theorem filter (h : SameMembers l m) {p q : α → Bool} (hpq : ∀ a, p a = q a) : SameMembers (l.filter p) (m.filter q) := by
  intro a
  rw [List.mem_filter, List.mem_filter, h a, hpq a]

theorem append (h : SameMembers l m) {l' m' : List α} (h' : SameMembers l' m') : SameMembers (l ++ l') (m ++ m') := by
  intro a
  rw [List.mem_append, List.mem_append, h a, h' a]

/-- What all members lead to is the same. -/
theorem flatMap (h : SameMembers l m) {f f' : α → List β} (hf : ∀ a, SameMembers (f a) (f' a)) :
    SameMembers (l.flatMap f) (m.flatMap f') := by
  intro b
  simp only [List.mem_flatMap, h _, hf _ b]

/-- Lists of lists that have the same members one by one have them together. -/
theorem flatten {ls ms : List (List α)} (h : List.Forall₂ SameMembers ls ms) : SameMembers ls.flatten ms.flatten := by
  induction h with
  | nil => exact .refl []
  | cons hfirst _ ih => exact hfirst.append ih

/-- What does not depend on the order within such lists is the same one by one. -/
theorem flatMap_eq {ls ms : List (List α)} (h : List.Forall₂ SameMembers ls ms) {f f' : List α → List β}
    (hf : ∀ l m, SameMembers l m → f l = f' m) : ls.flatMap f = ms.flatMap f' := by
  induction h with
  | nil => rfl
  | cons hfirst _ ih => rw [List.flatMap_cons, List.flatMap_cons, hf _ _ hfirst, ih]

theorem length_eq (h : SameMembers l m) (hl : l.Nodup) (hm : m.Nodup) : l.length = m.length :=
  ((List.perm_ext_iff_of_nodup hl hm).2 h).length_eq

/-- Dropping repetitions makes no difference. -/
theorem distinct [DecidableEq α] (h : SameMembers l m) : SameMembers (distinct l) (distinct m) := by
  intro a
  rw [mem_distinct, mem_distinct, h a]

end SameMembers

/-- Numbers in ascending order are listed the same way. -/
theorem Ascending.ofList_congr {l m : List Nat} (h : SameMembers l m) : ofList id l = ofList id m := by
  refine (sorted_ofList id l).eq_of_mem_iff (sorted_ofList id m) fun a => ?_
  rw [mem_ofList_id_iff, mem_ofList_id_iff, h a]

/-- The result of taking the maximum along a list is no more than a bound of its members. -/
theorem foldl_max_le {l : List Nat} {a b : Nat} (ha : a ≤ b) (h : ∀ c ∈ l, c ≤ b) : l.foldl max a ≤ b := by
  induction l generalizing a with
  | nil => exact ha
  | cons c l ih =>
    obtain ⟨hc, hl⟩ := List.forall_mem_cons.1 h
    exact ih (Nat.max_le.2 ⟨ha, hc⟩) hl

/-- The largest of the same numbers is the same. -/
theorem foldl_max_congr {l m : List Nat} (h : SameMembers l m) (a : Nat) : l.foldl max a = m.foldl max a := by
  have hle : ∀ {l m : List Nat}, (∀ b ∈ l, b ∈ m) → l.foldl max a ≤ m.foldl max a := fun hsub =>
    foldl_max_le (le_foldl_max_start _ a) fun b hb => le_foldl_max_of_mem (hsub b hb) a
  exact Nat.le_antisymm (hle fun b => (h b).1) (hle fun b => (h b).2)

/-- Layers that are found from the same set, along the same steps, have the same members one by one. -/
theorem forall₂_layersFrom {next next' : Nonterminal → List Nonterminal} (hnext : ∀ nt, SameMembers (next nt) (next' nt))
    (fuel : Nat) {seen seen' : Index Unit} (hseen : ∀ nt, seen.contains nt = seen'.contains nt)
    {frontier frontier' : List Nonterminal} (h : SameMembers frontier frontier') :
    List.Forall₂ SameMembers (layersFrom next fuel seen frontier) (layersFrom next' fuel seen' frontier') := by
  induction fuel generalizing seen seen' frontier frontier' with
  | zero => exact .nil
  | succ fuel ih =>
    simp only [layersFrom, List.isEmpty_iff]
    by_cases hnil : frontier = []
    · rw [if_pos hnil, if_pos (h.eq_nil_iff.1 hnil)]
      exact .nil
    · rw [if_neg hnil, if_neg fun hnil' => hnil (h.eq_nil_iff.2 hnil')]
      have hseen' : ∀ nt, (seen.insertAll frontier).contains nt = (seen'.insertAll frontier').contains nt := by
        intro nt
        rw [Bool.eq_iff_iff, Index.contains_insertAll, Index.contains_insertAll, h nt, hseen nt]
      refine .cons h (ih hseen' (((h.flatMap hnext).filter fun nt => ?_).distinct))
      rw [hseen' nt]

/-! ## Grammars with the same members -/

/-- The test for the same alternatives in any order. -/
theorem Alternatives.agrees_iff {a b : Alternatives} : a.agrees b = true ↔ SameMembers a.toList b.toList := by
  simp only [agrees, contains, Bool.and_eq_true, List.all_eq_true, List.contains_iff_mem]
  exact ⟨fun h p => ⟨h.1 p, h.2 p⟩, fun h => ⟨fun p => (h p).1, fun p => (h p).2⟩⟩

namespace Grammar

/-- Two grammars have the same start, names, nonterminals and productions, whatever the order. -/
structure Alike (g h : Grammar) : Prop where
  start : g.start = h.start
  names : g.names = h.names
  declared : SameMembers g.declared h.declared
  productions : ∀ nt, SameMembers (g.productionsOf nt) (h.productionsOf nt)

/-- Grammars agree when their starts, nonterminals and productions are the same, whatever the order. -/
theorem agrees_iff {g h : Grammar} : g.agrees h = true ↔
    g.start = h.start ∧ SameMembers g.declared h.declared ∧ ∀ nt, SameMembers (g.productionsOf nt) (h.productionsOf nt) := by
  rw [agrees, Bool.and_eq_true, beq_iff_eq, Rules.agrees, Bool.and_eq_true, List.all_eq_true, List.all_eq_true]
  refine and_congr_right fun _ => ?_
  constructor
  · rintro ⟨hback, hentries⟩
    have hentry : ∀ nt ∈ g.declared, ∃ a b, g.rules.get? nt = some a ∧ h.rules.get? nt = some b ∧ a.agrees b = true := by
      intro nt hnt
      obtain ⟨⟨_, a⟩, hmem, rfl⟩ := List.mem_map.1 hnt
      obtain ⟨b, hb, hab⟩ := (Option.any_eq_true _ _).1 (hentries _ hmem)
      exact ⟨a, b, (Table.get?_eq_some_iff g.rules.nodup).2 hmem, hb, hab⟩
    have hdeclared : SameMembers g.declared h.declared := by
      intro nt
      constructor
      · intro hnt
        obtain ⟨_, b, -, hb, -⟩ := hentry nt hnt
        exact Decidable.byContradiction fun hn => by simp [Rules.get?_eq_none_iff.2 hn] at hb
      · exact fun hnt => Rules.contains_eq_true_iff.1 (hback nt hnt)
    refine ⟨hdeclared, fun nt => ?_⟩
    by_cases hnt : nt ∈ g.declared
    · obtain ⟨a, b, ha, hb, hab⟩ := hentry nt hnt
      rw [← toList_of_get? ha, ← toList_of_get? hb]
      exact Alternatives.agrees_iff.1 hab
    · rw [productionsOf_of_not_declared hnt, productionsOf_of_not_declared fun hn => hnt ((hdeclared nt).2 hn)]
      exact .refl []
  · rintro ⟨hdeclared, hproductions⟩
    refine ⟨fun nt hnt => Rules.contains_eq_true_iff.2 ((hdeclared nt).2 hnt), fun entry hmem => ?_⟩
    obtain ⟨b, hb, hlist⟩ := exists_get?_of_declared ((hdeclared entry.1).1 (List.mem_map_of_mem hmem))
    refine (Option.any_eq_true _ _).2 ⟨b, hb, Alternatives.agrees_iff.2 ?_⟩
    rw [toList_of_mem_entries hmem, hlist]
    exact hproductions entry.1

namespace Alike

variable {g h : Grammar}

theorem symm (ha : Alike g h) : Alike h g :=
  ⟨ha.start.symm, ha.names.symm, ha.declared.symm, fun nt => (ha.productions nt).symm⟩

/-! ### What is generated -/

/-- Every nonterminal generates the same. -/
theorem words_eq (ha : Alike g h) : g.words = h.words := by
  funext nt
  refine Language.ext fun word => ?_
  exact ⟨words_mono fun m p => (ha.productions m p).1, words_mono fun m p => (ha.productions m p).2⟩

theorem language_iff (ha : Alike g h) (word : List Char) : g.Language word ↔ h.Language word := by
  rw [language_iff_mem_words, language_iff_mem_words, ha.words_eq, ha.start]

theorem nullable (ha : Alike g h) : SameMembers g.nullable h.nullable := by
  intro nt
  rw [mem_nullable_iff, mem_nullable_iff, ha.words_eq]

theorem productive (ha : Alike g h) : SameMembers g.productive h.productive := by
  intro nt
  rw [mem_productive_iff, mem_productive_iff, ha.words_eq]

theorem wellFormed (ha : Alike g h) (hg : g.WellFormed) : h.WellFormed := by
  refine ⟨ha.start ▸ (ha.declared _).1 hg.start, fun nt p hp m hm => ?_⟩
  exact (ha.declared m).1 (hg.mention nt p ((ha.productions nt p).2 hp) m hm)

/-- Left recursion is the same. -/
theorem leftRecursive_eq (ha : Alike g h) : g.leftRecursive = h.leftRecursive := by
  have hof : ∀ {g h : Grammar}, Alike g h → g.leftRecursive = false → h.leftRecursive = false := by
    intro g h ha hg
    rw [leftRecursive_eq_false_iff] at hg ⊢
    exact fun nt => Subrelation.accessible (Leads.mono fun m p => (ha.productions m p).2) (hg nt)
  rw [Bool.eq_iff_iff, ← not_iff_not, Bool.not_eq_true, Bool.not_eq_true]
  exact ⟨hof ha, hof ha.symm⟩

/-! ### What is fresh -/

/-- The same nonterminals are mentioned. -/
theorem mentions (ha : Alike g h) : SameMembers g.mentions h.mentions := by
  rintro ⟨nt, m⟩
  rw [mem_mentions, mem_mentions]
  exact exists_congr fun p => and_congr_left fun _ => ha.productions nt p

/-- The next fresh nonterminal is the same. -/
theorem freshNonterminal_eq (ha : Alike g h) : g.freshNonterminal = h.freshNonterminal := by
  have hused : SameMembers (g.declared ++ g.names.named ++ g.mentions.map Prod.snd)
      (h.declared ++ h.names.named ++ h.mentions.map Prod.snd) :=
    (ha.declared.append (ha.names ▸ .refl _)).append (ha.mentions.map Prod.snd)
  rw [freshNonterminal, freshNonterminal, maxNonterminal, maxNonterminal, ha.start, foldl_max_congr hused]

theorem freshName_eq (ha : Alike g h) (origin : Nonterminal) : g.freshName origin = h.freshName origin := by
  rw [freshName, freshName, nameOf, nameOf, ha.names]

/-! ### Reaching and ordering -/

theorem mentionsOf (ha : Alike g h) (nt : Nonterminal) : SameMembers (g.mentionsOf nt) (h.mentionsOf nt) :=
  (ha.productions nt).flatMap fun _ => .refl _

theorem size_eq (ha : Alike g h) : g.rules.size = h.rules.size := by
  have hlength := ha.declared.length_eq g.rules.nodup h.rules.nodup
  rwa [Grammar.declared, Rules.declared, List.length_map, Grammar.declared, Rules.declared, List.length_map] at hlength

theorem contains_eq (ha : Alike g h) (nt : Nonterminal) : g.rules.contains nt = h.rules.contains nt := by
  rw [Bool.eq_iff_iff, Rules.contains_eq_true_iff, Rules.contains_eq_true_iff]
  exact ha.declared nt

/-- Layer by layer the same nonterminals are found. -/
theorem distanceLayers (ha : Alike g h) : List.Forall₂ SameMembers g.distanceLayers h.distanceLayers := by
  rw [Grammar.distanceLayers, Grammar.distanceLayers, layers, layers, ha.size_eq, ha.start]
  exact forall₂_layersFrom ha.mentionsOf _ (fun _ => rfl) (.refl _)

theorem reachable (ha : Alike g h) : SameMembers g.reachable h.reachable := .flatten ha.distanceLayers

/-- The order by distance is the same list. -/
theorem distanceOrder_eq (ha : Alike g h) : g.distanceOrder = h.distanceOrder := by
  have hrest : SameMembers (g.declared.filter fun nt => !g.distanceLayers.flatten.contains nt)
      (h.declared.filter fun nt => !h.distanceLayers.flatten.contains nt) := by
    refine ha.declared.filter fun nt => congrArg (! ·) ?_
    rw [Bool.eq_iff_iff, List.contains_iff_mem, List.contains_iff_mem]
    exact ha.reachable nt
  exact SameMembers.flatMap_eq (List.rel_append ha.distanceLayers (.cons hrest .nil)) fun l m hlm =>
    Ascending.ofList_congr (hlm.filter ha.contains_eq)

end Alike

end Grammar

end TopDown
