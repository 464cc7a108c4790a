import TopDown.Proofs.Factored
import TopDown.Proofs.Naming

/-!
# The shape of normalized grammars

What a normalized grammar looks like depends on the route. Factoring leaves nothing to factor, and the last trimming only takes
productions away. The removal of left recursion works on a grammar without empty productions and makes none, so the only empty
production is that of the fresh start, which nothing mentions; it is there when the empty word was in the language. The grammar
of the empty word alone has the same shape.

Main statement: `normalize_shape`.
-/

namespace TopDown.Grammar

/-! ## Trimming -/

namespace Trims

variable {g h : Grammar}

theorem isFactored (ht : Trims g h) (hg : g.isFactored = true) : h.isFactored = true :=
  isFactored_iff.2 fun nt => (isFactored_iff.1 hg nt).sublist ((ht.productionsOf_sublist nt).map List.head?)

/-- An empty production of the start is not trimmed. -/
theorem nil_mem_productionsOf_start (ht : Trims g h) (hnil : [] ∈ g.productionsOf g.start) : [] ∈ h.productionsOf h.start := by
  rw [ht.start_eq]
  refine ht.mem_productionsOf_iff.2 ⟨mem_productionsOf_onlyProductive.2 ⟨hnil, fun _ hm => nomatch hm⟩, ?_⟩
  exact mem_reachable_iff.2 Relation.ReflTransGen.refl

end Trims

/-! ## Where the empty word is -/

/-- Only the start has an empty production; it has one if the empty word is wanted, and is then mentioned nowhere. -/
structure EmptyAtStart (wanted : Prop) (g : Grammar) : Prop where
  only : ∀ nt, [] ∈ g.productionsOf nt → nt = g.start
  iff : [] ∈ g.productionsOf g.start ↔ wanted
  unmentioned : wanted → ∀ nt, ∀ p ∈ g.productionsOf nt, .nonterminal g.start ∉ p

namespace EmptyAtStart

variable {wanted : Prop} {g h : Grammar}

/-- A grammar without empty productions has this shape when the empty word is not wanted. -/
theorem of_noEmpty (hne : ∀ nt, [] ∉ g.productionsOf nt) (hwanted : ¬ wanted) : EmptyAtStart wanted g where
  only := fun nt hnil => absurd hnil (hne nt)
  iff := iff_of_false (hne g.start) hwanted
  unmentioned := fun h => absurd h hwanted

/-- The fresh start that brings the empty word back gives a grammar without empty productions this shape. -/
theorem withEmptyWord (hne : ∀ nt, [] ∉ g.productionsOf nt) (hwanted : wanted) : EmptyAtStart wanted g.withEmptyWord := by
  have hstart : g.withEmptyWord.productionsOf g.freshNonterminal = [[.nonterminal g.start], []] := by
    rw [productionsOf_withEmptyWord, if_pos rfl]
  refine ⟨fun nt hnil => ?_, iff_of_true ?_ hwanted, fun _ nt p hp hm => ?_⟩
  · refine Decidable.byContradiction fun hnt => hne nt ?_
    rwa [productionsOf_withEmptyWord_of_ne hnt] at hnil
  · exact hstart ▸ List.mem_cons_of_mem _ List.mem_cons_self
  · change .nonterminal g.freshNonterminal ∈ p at hm
    by_cases hnt : nt = g.freshNonterminal
    · rw [hnt, hstart] at hp
      rcases List.mem_cons.1 hp with rfl | hp
      · exact g.start_ne_freshNonterminal (Symbol.nonterminal.inj (List.mem_singleton.1 hm)).symm
      · rw [List.mem_singleton.1 hp] at hm
        exact nomatch hm
    · rw [productionsOf_withEmptyWord_of_ne hnt] at hp
      exact freshNonterminal_not_mem nt p hp hm

/-- The grammar of the empty word alone has this shape. -/
theorem onlyEmptyWord (hwanted : wanted) : EmptyAtStart wanted g.onlyEmptyWord where
  only := fun _ hnil => (mem_productionsOf_onlyEmptyWord.1 hnil).1
  iff := iff_of_true (mem_productionsOf_onlyEmptyWord.2 ⟨rfl, rfl⟩) hwanted
  unmentioned := fun _ _ p hp hm => by
    rw [(mem_productionsOf_onlyEmptyWord.1 hp).2] at hm
    exact nomatch hm

/-- Trimming keeps the shape. -/
theorem trims (hg : EmptyAtStart wanted g) (ht : Trims g h) : EmptyAtStart wanted h where
  only := fun nt hnil => (hg.only nt (ht.mem_of_mem hnil)).trans ht.start_eq.symm
  iff := by
    constructor
    · intro hnil
      rw [ht.start_eq] at hnil
      exact hg.iff.1 (ht.mem_of_mem hnil)
    · exact fun hwanted => ht.nil_mem_productionsOf_start (hg.iff.2 hwanted)
  unmentioned := fun hwanted nt p hp => ht.start_eq ▸ hg.unmentioned hwanted nt p (ht.mem_of_mem hp)

end EmptyAtStart

/-- The removal of left recursion leaves an empty production to the start only. -/
theorem emptyAtStart_of_descending {g h : Grammar} (hh : g.descending = .ok h) : EmptyAtStart (g.Language []) h := by
  rcases descending_cases hh with ⟨-, hnil, rfl⟩ | ⟨clean, result, ht, hresult, rfl⟩
  · exact .onlyEmptyWord (startNullable_iff.1 hnil)
  · have hclean : ∀ nt, [] ∉ clean.productionsOf nt := fun nt hp =>
      g.nil_not_mem_productionsOf_reduced nt (ht.mem_of_mem hp)
    have hne := (ordered_of_withoutLeftRecursion hclean hresult).noEmpty
    split
    · rename_i hnil
      exact .withEmptyWord hne (startNullable_iff.1 hnil)
    · rename_i hnil
      exact .of_noEmpty hne fun h => hnil (startNullable_iff.2 h)

/-- A grammar that was normalized by factoring is factored. -/
theorem isFactored_of_normalize {g : Grammar} {n : Normalized} (hn : g.normalize = .ok n) (hroute : n.route = .leftFactoring) :
    n.grammar.isFactored = true := by
  obtain ⟨-, h, hfollow, ht⟩ := exists_follow_of_normalize hn
  rw [hroute] at hfollow
  cases hfollow
  exact ht.isFactored g.isFactored_factored

/-- A grammar that was normalized by factoring is factored. One that was normalized by removing left recursion has no empty
production except that of its start, which is there if the empty word is in the language, and the start is then mentioned
nowhere. -/
theorem normalize_shape {g : Grammar} {n : Normalized} (hn : g.normalize = .ok n) :
    (n.route = .leftFactoring → n.grammar.isFactored = true) ∧
    (n.route = .leftRecursionRemoval →
      (∀ nt, [] ∈ n.grammar.productionsOf nt → nt = n.grammar.start) ∧
      ([] ∈ n.grammar.productionsOf n.grammar.start ↔ g.Language []) ∧
      (g.Language [] → ∀ nt, ∀ p ∈ n.grammar.productionsOf nt, .nonterminal n.grammar.start ∉ p)) := by
  refine ⟨isFactored_of_normalize hn, fun hroute => ?_⟩
  obtain ⟨-, h, hfollow, ht⟩ := exists_follow_of_normalize hn
  rw [hroute] at hfollow
  obtain ⟨honly, hiff, hunmentioned⟩ := (emptyAtStart_of_descending hfollow).trims ht
  exact ⟨honly, hiff, hunmentioned⟩

end TopDown.Grammar
