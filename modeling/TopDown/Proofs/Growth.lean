import Mathlib.Algebra.BigOperators.Group.List.Basic
import TopDown.Proofs.Factored

/-!
# How much factoring adds

A factoring loses no production and merges none. Productions that begin alike move to the fresh nonterminal that is introduced
for them, all different, and one production is left in their place; so there is one production more for every nonterminal that is
introduced. The common stem of productions is as long as it can be, so that the remainders do not all begin alike, and a fresh
nonterminal never has fewer than two productions. This bounds how many there can be.

Main statements: `Part.branching_of_shared_mem` (what is left of productions without their stem), `Factoring.grows_take` (one
nonterminal), `Factoring.grows_run` (all of them), `Grammar.factored_counts`.
-/

namespace TopDown

/-! ## Remainders -/

namespace Production

/-- What is at the beginning of two productions is at the beginning of what they have in common. -/
theorem prefix_commonStem {stem p q : Production} (hp : stem <+: p) (hq : stem <+: q) : stem <+: commonStem p q := by
  induction stem generalizing p q with
  | nil => exact List.nil_prefix
  | cons s stem ih =>
    obtain ⟨p, rfl⟩ := hp
    obtain ⟨q, rfl⟩ := hq
    rw [List.cons_append, List.cons_append, commonStem, if_pos rfl, List.prefix_cons_inj]
    exact ih (List.prefix_append stem p) (List.prefix_append stem q)

/-- What is at the beginning of several productions is at the beginning of their common stem. -/
theorem prefix_foldl_commonStem {stem first : Production} {others : List Production} (h : ∀ p ∈ first :: others, stem <+: p) :
    stem <+: others.foldl commonStem first := by
  induction others generalizing first with
  | nil => exact h first List.mem_cons_self
  | cons second others ih =>
    apply ih
    intro p hp
    rcases List.mem_cons.1 hp with rfl | hp
    · exact prefix_commonStem (h first (by simp)) (h second (by simp))
    · exact h p (by simp [hp])

end Production

/-- Two of the productions begin differently; the empty one begins like no other. -/
def Branching (ps : List Production) : Prop := ∃ p ∈ ps, ∃ q ∈ ps, p.head? ≠ q.head?

namespace Branching

variable {ps qs : List Production}

/-- Productions that begin differently are two at least. -/
theorem two_le_length (h : Branching ps) : 2 ≤ ps.length := by
  obtain ⟨p, hp, q, hq, hpq⟩ := h
  match ps with
  | [] => simp at hp
  | [only] => simp_all
  | _ :: _ :: _ => simp

/-- Productions that begin in all the ways in which others begin are as different. -/
theorem of_heads (h : Branching ps) (hheads : ∀ p ∈ ps, ∃ q ∈ qs, q.head? = p.head?) : Branching qs := by
  obtain ⟨p, hp, p', hp', hne⟩ := h
  obtain ⟨q, hq, hqp⟩ := hheads p hp
  obtain ⟨q', hq', hqp'⟩ := hheads p' hp'
  exact ⟨q, hq, q', hq', by rwa [hqp, hqp']⟩

end Branching

namespace Part

variable {ps : List Production}

/-- What is left of different productions without their common stem does not all begin alike. -/
theorem branching_of_together {first second stem : Production} {others remainders : List Production}
    (hne : first ≠ second) (h : together first (second :: others) = .shared stem remainders) : Branching remainders := by
  have hremainder : ∀ p ∈ first :: second :: others, ∃ r ∈ remainders, p = stem ++ r := by
    intro p hp
    obtain ⟨stem', remainders', htogether, hr⟩ := exists_remainder hp
    cases h.symm.trans htogether
    exact hr
  obtain ⟨r, hr, hfirst⟩ := hremainder first (by simp)
  obtain ⟨r', hr', hsecond⟩ := hremainder second (by simp)
  by_contra hnot
  have hsame : ∀ t ∈ remainders, t.head? = r.head? := by
    intro t ht
    by_contra hne
    exact hnot ⟨t, ht, r, hr, hne⟩
  cases r with
  | nil =>
    have hnil : r' = [] := List.head?_eq_none_iff.1 (hsame r' hr')
    exact hne (by rw [hfirst, hsecond, hnil])
  | cons s r =>
    -- if all remainders began with one symbol, it would belong to the stem
    have hlonger : stem ++ [s] <+: (second :: others).foldl Production.commonStem first := by
      refine Production.prefix_foldl_commonStem fun p hp => ?_
      obtain ⟨t, ht, rfl⟩ := hremainder p hp
      obtain ⟨t, rfl⟩ := List.head?_eq_some_iff.1 (hsame t ht)
      exact ⟨t, by simp⟩
    cases h
    have hlength := hlonger.length_le
    simp at hlength

/-- The remainders of a shared stem are all different, and they do not all begin alike. -/
theorem branching_of_shared_mem (h : ps.Nodup) {stem : Production} {remainders : List Production}
    (hshared : .shared stem remainders ∈ ofProductions ps) : remainders.Nodup ∧ Branching remainders := by
  constructor
  · exact (h.sublist (members_sublist hshared)).of_map
  · obtain ⟨p, -, hof⟩ := List.mem_filterMap.1 hshared
    rcases of?_cases ps p with ha | ⟨first, second, others, -, hg, hs⟩
    · rw [ha] at hof
      cases hof
    · rw [hs] at hof
      split at hof
      · have hnodup : (first :: second :: others).Nodup := hg ▸ h.filter _
        refine branching_of_together (fun he => ?_) (Option.some.inj hof)
        simp [he] at hnodup
      · cases hof

/-! ## Counting productions -/

/-- How many nonterminals are introduced for a part. -/
def introduces : Part → Nat
  | alone _ => 0
  | shared _ _ => 1

/-- How many productions a part moves to a fresh nonterminal. -/
def moves : Part → Nat
  | alone _ => 0
  | shared _ remainders => remainders.length

/-- A part is one production with a fresh nonterminal for those that it moves, or one that is left alone. -/
theorem length_members_add_introduces (part : Part) : part.members.length + part.introduces = part.moves + 1 := by
  cases part with
  | alone p => rfl
  | shared stem remainders => simp [members, introduces, moves]

/-- The productions, and the nonterminals that are introduced for them, are what is moved and what is left in its place. -/
theorem length_add_sum_introduces (h : ps.Nodup) :
    ps.length + ((ofProductions ps).map introduces).sum =
      ((ofProductions ps).map moves).sum + (ofProductions ps).length := by
  have hmembers : ps.length = ((ofProductions ps).map fun part => part.members.length).sum := by
    rw [← (members_perm h).length_eq, List.length_flatMap]
  rw [hmembers, ← List.sum_map_add]
  simp only [length_members_add_introduces, List.sum_map_add]
  simp

end Part

namespace Grammar

/-- The productions of a grammar are those of its declared nonterminals. -/
theorem productionCount_eq (g : Grammar) : g.productionCount = (g.declared.map fun nt => (g.productionsOf nt).length).sum := by
  rw [productionCount, Rules.productionCount, Rules.productions_eq, List.length_flatMap]
  simp only [List.length_map]
  rfl

theorem declared_addFresh (g : Grammar) (origin : Nonterminal) (ps : List Production) :
    (g.addFresh origin ps).declared = g.declared ++ [g.freshNonterminal] :=
  (Rules.declared_set _ _ _).trans (if_neg g.freshNonterminal_not_declared)

/-- A fresh nonterminal adds its productions. -/
theorem productionCount_addFresh (g : Grammar) (origin : Nonterminal) (ps : List Production) :
    (g.addFresh origin ps).productionCount = g.productionCount + (distinct ps).length := by
  have hold : ∀ nt ∈ g.declared, ((g.addFresh origin ps).productionsOf nt).length = (g.productionsOf nt).length := by
    intro nt hnt
    rw [productionsOf_addFresh, if_neg (ne_freshNonterminal_of_declared hnt)]
  rw [productionCount_eq, productionCount_eq, declared_addFresh, List.map_append, List.sum_append, List.map_congr_left hold,
    List.map_singleton, List.sum_singleton, productionsOf_addFresh, if_pos rfl]

theorem declared_setProductions {g : Grammar} {nt : Nonterminal} (h : nt ∈ g.declared) (ps : List Production) :
    (g.setProductions nt ps).declared = g.declared :=
  (Rules.declared_set _ _ _).trans (if_pos h)

/-- A declared nonterminal that is given productions has these in place of its own. -/
theorem productionCount_setProductions {g : Grammar} {nt : Nonterminal} (h : nt ∈ g.declared) (ps : List Production) :
    (g.setProductions nt ps).productionCount + (g.productionsOf nt).length = g.productionCount + (distinct ps).length := by
  have hrest : ∀ m ∈ g.declared.erase nt, ((g.setProductions nt ps).productionsOf m).length = (g.productionsOf m).length := by
    intro m hm
    have hne : m ≠ nt := ((g.rules.nodup.mem_erase_iff).1 hm).1
    rw [productionsOf_setProductions, if_neg hne]
  rw [productionCount_eq, productionCount_eq, declared_setProductions h, ← List.sum_map_erase _ h,
    ← List.sum_map_erase (fun m => (g.productionsOf m).length) h, List.map_congr_left hrest, productionsOf_setProductions,
    if_pos rfl]
  omega

end Grammar

/-! ## What a factoring adds -/

namespace Factoring

open Grammar (Awaits)

/-- A factoring went on: it declared some fresh nonterminals and counted them, each of which has productions that begin
differently, and the productions of every other nonterminal begin in all the ways in which they did. -/
structure Grows (s t : Factoring) (fresh : List Nonterminal) : Prop where
  declared : t.grammar.declared = s.grammar.declared ++ fresh
  introduced : t.introduced = s.introduced + fresh.length
  branching : ∀ nt ∈ fresh, Branching (t.grammar.productionsOf nt)
  heads : ∀ nt ∈ s.grammar.declared, ∀ p ∈ s.grammar.productionsOf nt, ∃ q ∈ t.grammar.productionsOf nt, q.head? = p.head?

namespace Grows

variable {s t u : Factoring} {fresh more : List Nonterminal}

/-- When nothing happens, nothing is added. -/
theorem refl (s : Factoring) : Grows s s [] where
  declared := (List.append_nil _).symm
  introduced := rfl
  branching := by simp
  heads nt _ p hp := ⟨p, hp, rfl⟩

/-- What is added in two parts is added in all. -/
theorem trans (hs : Grows s t fresh) (ht : Grows t u more) : Grows s u (fresh ++ more) := by
  refine ⟨?_, ?_, fun nt hnt => ?_, fun nt hnt p hp => ?_⟩
  · rw [ht.declared, hs.declared, List.append_assoc]
  · rw [ht.introduced, hs.introduced, List.length_append, Nat.add_assoc]
  · rcases List.mem_append.1 hnt with hnt | hnt
    · have hdeclared : nt ∈ t.grammar.declared := hs.declared ▸ List.mem_append_right _ hnt
      exact (hs.branching nt hnt).of_heads (ht.heads nt hdeclared)
    · exact ht.branching nt hnt
  · obtain ⟨q, hq, hqp⟩ := hs.heads nt hnt p hp
    obtain ⟨r, hr, hrq⟩ := ht.heads nt (hs.declared ▸ List.mem_append_left _ hnt) q hq
    exact ⟨r, hr, hrq.trans hqp⟩

/-- What is added does not depend on the queue. -/
theorem of_pending {nts : List Nonterminal} (h : Grows { s with pending := nts } t fresh) : Grows s t fresh :=
  ⟨h.declared, h.introduced, h.branching, h.heads⟩

/-- A nonterminal is introduced for remainders that do not all begin alike. -/
theorem introduce (s : Factoring) (nt : Nonterminal) {remainders : List Production} (h : Branching remainders) :
    Grows s (s.introduce nt remainders) [s.grammar.freshNonterminal] := by
  refine ⟨s.grammar.declared_addFresh nt remainders, rfl, fun m hm => ?_, fun m hm p hp => ⟨p, ?_, rfl⟩⟩
  · rw [List.mem_singleton.1 hm]
    refine h.of_heads fun p hp => ⟨p, ?_, rfl⟩
    rwa [Factoring.introduce, Grammar.productionsOf_addFresh, if_pos rfl, mem_distinct]
  · rwa [Factoring.introduce, Grammar.productionsOf_addFresh, if_neg (Grammar.ne_freshNonterminal_of_declared hm)]

/-- A nonterminal is given productions that begin in all the ways in which its own do. -/
theorem setProductions {nt : Nonterminal} (hnt : nt ∈ s.grammar.declared) {ps : List Production}
    (hheads : ∀ p ∈ s.grammar.productionsOf nt, ∃ q ∈ ps, q.head? = p.head?) :
    Grows s { s with grammar := s.grammar.setProductions nt ps } [] := by
  refine ⟨?_, rfl, by simp, fun m hm p hp => ?_⟩
  · rw [List.append_nil]
    exact Grammar.declared_setProductions hnt ps
  · rw [Grammar.productionsOf_setProductions]
    split
    · rename_i hmn
      subst hmn
      simpa using hheads p hp
    · exact ⟨p, hp, rfl⟩

end Grows

/-- Placing parts introduces a nonterminal for each that is shared. -/
theorem grows_place (nt : Nonterminal) {parts : List Part}
    (h : ∀ stem remainders, .shared stem remainders ∈ parts → remainders.Nodup ∧ Branching remainders) (s : Factoring) :
    ∃ fresh, Grows s (place nt parts s).1 fresh ∧ fresh.length = (parts.map Part.introduces).sum := by
  induction parts generalizing s with
  | nil => exact ⟨[], Grows.refl s, rfl⟩
  | cons part parts ih =>
    have ih := ih fun stem remainders hs => h stem remainders (List.mem_cons_of_mem part hs)
    cases part with
    | alone p =>
      obtain ⟨fresh, hgrows, hlength⟩ := ih s
      exact ⟨fresh, hgrows, by simpa [Part.introduces] using hlength⟩
    | shared stem remainders =>
      obtain ⟨fresh, hgrows, hlength⟩ := ih (s.introduce nt remainders)
      have hbranching := (h stem remainders List.mem_cons_self).2
      refine ⟨_ :: fresh, (Grows.introduce s nt hbranching).trans hgrows, ?_⟩
      simp [Part.introduces, hlength, Nat.add_comm]

/-- Placing parts adds the productions that they move, and gives one production for each. -/
theorem productionCount_place (nt : Nonterminal) {parts : List Part}
    (h : ∀ stem remainders, .shared stem remainders ∈ parts → remainders.Nodup ∧ Branching remainders) (s : Factoring) :
    (place nt parts s).1.grammar.productionCount = s.grammar.productionCount + (parts.map Part.moves).sum ∧
      (place nt parts s).2.length = parts.length := by
  induction parts generalizing s with
  | nil => exact ⟨rfl, rfl⟩
  | cons part parts ih =>
    have ih := ih fun stem remainders hs => h stem remainders (List.mem_cons_of_mem part hs)
    cases part with
    | alone p =>
      obtain ⟨hcount, hlength⟩ := ih s
      exact ⟨by simpa [place, Part.moves] using hcount, congrArg (· + 1) hlength⟩
    | shared stem remainders =>
      obtain ⟨hcount, hlength⟩ := ih (s.introduce nt remainders)
      have hnodup := (h stem remainders List.mem_cons_self).1
      refine ⟨?_, congrArg (· + 1) hlength⟩
      rw [place, hcount, introduce, Grammar.productionCount_addFresh, distinct_eq_self hnodup, List.map_cons, List.sum_cons,
        Part.moves, Nat.add_assoc]

/-- The productions of a nonterminal begin in all the ways in which they did when its parts are placed. -/
theorem exists_head?_eq_of_place {s : Factoring} {nt : Nonterminal} {p : Production} (hp : p ∈ s.grammar.productionsOf nt) :
    ∃ q ∈ (place nt (Part.ofProductions (s.grammar.productionsOf nt)) s).2, q.head? = p.head? := by
  obtain ⟨part, hpart, hmember⟩ :=
    List.mem_flatMap.1 ((Part.members_perm (s.grammar.nodup_productionsOf nt)).mem_iff.2 hp)
  have hhead : part.head? ∈ (place nt (Part.ofProductions (s.grammar.productionsOf nt)) s).2.map List.head? := by
    rw [heads_place nt fun _ _ => Part.stem_ne_nil]
    exact List.mem_map_of_mem hpart
  obtain ⟨q, hq, hqpart⟩ := List.mem_map.1 hhead
  exact ⟨q, hq, hqpart.trans (Part.head?_of_mem_members hpart p hmember).symm⟩

/-- Taking a declared nonterminal adds a nonterminal for each shared part, and one production for each of these. -/
theorem grows_take {s : Factoring} {nt : Nonterminal} (hnt : nt ∈ s.grammar.declared) :
    ∃ fresh, Grows s (s.take nt) fresh ∧
      (s.take nt).grammar.productionCount = s.grammar.productionCount + fresh.length := by
  have hnodup := s.grammar.nodup_productionsOf nt
  have hparts : ∀ stem remainders, .shared stem remainders ∈ Part.ofProductions (s.grammar.productionsOf nt) →
      remainders.Nodup ∧ Branching remainders := fun _ _ => Part.branching_of_shared_mem hnodup
  obtain ⟨fresh, hgrows, hfresh⟩ := grows_place nt hparts s
  obtain ⟨hcount, hlength⟩ := productionCount_place nt hparts s
  have hkept : (place nt (Part.ofProductions (s.grammar.productionsOf nt)) s).1.grammar.productionsOf nt =
      s.grammar.productionsOf nt :=
    (placed_place nt _ s).kept nt (Grammar.le_maxNonterminal_of_declared hnt)
  have hdeclared : nt ∈ (place nt (Part.ofProductions (s.grammar.productionsOf nt)) s).1.grammar.declared :=
    (placed_place nt _ s).declared nt hnt
  refine ⟨fresh, ?_, ?_⟩
  · have hset := hgrows.trans (Grows.setProductions hdeclared fun p hp => exists_head?_eq_of_place (hkept ▸ hp))
    rwa [List.append_nil] at hset
  · have hset := Grammar.productionCount_setProductions hdeclared
      (place nt (Part.ofProductions (s.grammar.productionsOf nt)) s).2
    rw [hkept, distinct_eq_self (headsDiffer_place s nt).of_map, hlength, hcount] at hset
    have hmoved := Part.length_add_sum_introduces hnodup
    have htake : (s.take nt).grammar = (place nt (Part.ofProductions (s.grammar.productionsOf nt)) s).1.grammar.setProductions nt
        (place nt (Part.ofProductions (s.grammar.productionsOf nt)) s).2 := rfl
    rw [htake]
    omega

/-- Taking nonterminals from the queue adds fresh ones, and one production for each of these. -/
theorem grows_run {s : Factoring} (h : Awaits s.grammar s.pending) (fuel : Nat) :
    ∃ fresh, Grows s (run fuel s) fresh ∧
      (run fuel s).grammar.productionCount = s.grammar.productionCount + fresh.length := by
  induction fuel generalizing s with
  | zero => exact ⟨[], Grows.refl s, rfl⟩
  | succ fuel ih =>
    unfold run
    cases hpending : s.pending with
    | nil => exact ⟨[], Grows.refl s, rfl⟩
    | cons nt rest =>
      rw [hpending] at h
      obtain ⟨fresh, hgrows, hcount⟩ := grows_take (s := { s with pending := rest }) (h.declared nt List.mem_cons_self)
      obtain ⟨more, hmore, hcountmore⟩ := ih (awaits_take (s := { s with pending := rest }) h).1
      refine ⟨fresh ++ more, (hgrows.trans hmore).of_pending, ?_⟩
      rw [hcountmore, hcount, List.length_append, Nat.add_assoc]

end Factoring

namespace Grammar

/-- There are as many productions as there are nonterminals that have some. -/
theorem length_filter_le_sum {g h : Grammar} {nts : List Nonterminal}
    (hsome : ∀ nt ∈ nts, g.productionsOf nt ≠ [] → h.productionsOf nt ≠ []) :
    (nts.filter fun nt => g.productionsOf nt ≠ []).length ≤ (nts.map fun nt => (h.productionsOf nt).length).sum := by
  induction nts with
  | nil => exact Nat.le_refl 0
  | cons nt nts ih =>
    have ih := ih fun m hm => hsome m (List.mem_cons_of_mem nt hm)
    rw [List.filter_cons, List.map_cons, List.sum_cons]
    split
    · rename_i hnt
      have hpos := List.length_pos_of_ne_nil (hsome nt List.mem_cons_self (of_decide_eq_true hnt))
      rw [List.length_cons]
      omega
    · omega

/-- A factoring takes every nonterminal of its queue. It adds one production for every nonterminal that it introduces, so no
production is lost or merged with another; and it introduces no more nonterminals than there are productions beyond the first
of each nonterminal. -/
theorem factored_counts (g : Grammar) :
    (g.factoring.pending = [] ∧ ∀ fuel, g.extent ≤ fuel → Factoring.run fuel ⟨g, g.declared, 0⟩ = g.factoring) ∧
    (∃ fresh, g.factored.declared = g.declared ++ fresh ∧ fresh.length = g.factoring.introduced) ∧
    g.factored.rules.size = g.rules.size + g.factoring.introduced ∧
    g.factored.productionCount = g.productionCount + g.factoring.introduced ∧
    g.factoring.introduced + (g.declared.filter fun nt => g.productionsOf nt ≠ []).length ≤ g.productionCount := by
  obtain ⟨fresh, hgrows, hcount⟩ := Factoring.grows_run (s := ⟨g, g.declared, 0⟩) g.awaits_declared g.extent
  have hdeclared : g.factored.declared = g.declared ++ fresh := hgrows.declared
  have hintroduced : g.factoring.introduced = fresh.length := hgrows.introduced.trans (Nat.zero_add _)
  have hcount : g.factored.productionCount = g.productionCount + fresh.length := hcount
  refine ⟨⟨g.pending_factoring, fun fuel hfuel => ?_⟩, ⟨fresh, hdeclared, hintroduced.symm⟩, ?_, ?_, ?_⟩
  · obtain ⟨more, rfl⟩ := Nat.exists_eq_add_of_le hfuel
    rw [Factoring.run_add]
    exact Factoring.run_of_pending_eq_nil g.pending_factoring more
  · have hsize := congrArg List.length hdeclared
    simpa [Grammar.declared, Rules.declared, Rules.size, hintroduced] using hsize
  · rw [hcount, hintroduced]
  · have hold : (g.declared.filter fun nt => g.productionsOf nt ≠ []).length ≤
        (g.declared.map fun nt => (g.factored.productionsOf nt).length).sum := by
      refine length_filter_le_sum fun nt hnt hne => ?_
      obtain ⟨p, hp⟩ := List.exists_mem_of_ne_nil _ hne
      obtain ⟨q, hq, -⟩ := hgrows.heads nt hnt p hp
      exact List.ne_nil_of_mem hq
    have hnew : fresh.length * 2 ≤ (fresh.map fun nt => (g.factored.productionsOf nt).length).sum := by
      have htwo : ∀ n ∈ fresh.map fun nt => (g.factored.productionsOf nt).length, 2 ≤ n := by
        intro n hn
        obtain ⟨nt, hnt, rfl⟩ := List.mem_map.1 hn
        exact (hgrows.branching nt hnt).two_le_length
      have hsum := List.card_nsmul_le_sum _ 2 htwo
      rwa [List.length_map, Nat.nsmul_eq_mul] at hsum
    have hall := productionCount_eq g.factored
    rw [hdeclared, List.map_append, List.sum_append, hcount] at hall
    rw [hintroduced]
    omega

end Grammar

end TopDown
