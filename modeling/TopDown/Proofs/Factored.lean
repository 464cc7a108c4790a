import Mathlib.Algebra.Order.BigOperators.Group.List
import Mathlib.Algebra.Order.Ring.Nat
import Mathlib.Data.List.Flatten
import TopDown.Proofs.Factoring

/-!
# Factoring leaves nothing to factor

The parts of a nonterminal's productions begin with different symbols, and so do the productions that the parts become; a
nonterminal that was taken is factored, and nothing that is done for others changes it. What is left to do is measured by the
queue: each nonterminal in it counts for itself and for the symbols of its productions. A stem that is split off was there once
for each of two productions or more, so what its fresh nonterminal counts was counted before, and the nonterminal that was
taken counts no more. The measure at the start is the extent of the grammar, so the queue is empty at the end.

Main statements: `isFactored_iff`, `isFactored_factored` and `factored_exact`.
-/

namespace TopDown

/-! ## First symbols -/

/-- No two of the productions begin with the same symbol; at most one is empty. -/
def HeadsDiffer (ps : List Production) : Prop := (ps.map List.head?).Nodup

namespace Part

/-- The first symbol of a part. -/
def head? : Part → Option Symbol
  | alone p => p.head?
  | shared stem _ => stem.head?

variable {ps : List Production}

/-- Where productions begin with different symbols, every group is a single production. -/
theorem group_eq_singleton (h : HeadsDiffer ps) {p : Production} (hp : p ∈ ps) : group ps p = [p] := by
  have hnodup : (group ps p).Nodup := h.of_map.filter _
  refine List.perm_singleton.1 ((List.perm_ext_iff_of_nodup hnodup (List.nodup_singleton p)).2 fun q => ?_)
  rw [mem_group, List.mem_singleton]
  constructor
  · exact fun ⟨hq, hhead⟩ => List.inj_on_of_nodup_map h hq hp hhead
  · rintro rfl
    exact ⟨hp, rfl⟩

/-- Productions that are all different begin with different symbols if those that are not empty are each alone in their
group. -/
theorem headsDiffer_iff (h : ps.Nodup) : HeadsDiffer ps ↔ ∀ p ∈ ps, p = [] ∨ (group ps p).length = 1 := by
  constructor
  · exact fun hheads p hp => .inr (by rw [group_eq_singleton hheads hp]; rfl)
  · intro hgroup
    refine h.map_on fun p hp q hq hpq => ?_
    rcases hgroup p hp with rfl | hone
    · exact (List.head?_eq_none_iff.1 hpq.symm).symm
    · obtain ⟨only, honly⟩ := List.length_eq_one_iff.1 hone
      have hp' : p ∈ group ps p := mem_group.2 ⟨hp, rfl⟩
      have hq' : q ∈ group ps p := mem_group.2 ⟨hq, hpq.symm⟩
      rw [honly, List.mem_singleton] at hp' hq'
      rw [hp', hq']

end Part

namespace Production

/-- What two productions with the same first symbol have in common begins with it. -/
theorem head?_commonStem {p q : Production} (h : q.head? = p.head?) : (commonStem p q).head? = p.head? := by
  cases p with
  | nil => rfl
  | cons s p =>
    cases q with
    | nil => cases h
    | cons t q =>
      cases h
      rw [commonStem, if_pos rfl]
      rfl

/-- The common stem of productions with the same first symbol begins with it. -/
theorem head?_foldl_commonStem {first : Production} {others : List Production} (h : ∀ p ∈ others, p.head? = first.head?) :
    (others.foldl commonStem first).head? = first.head? := by
  induction others generalizing first with
  | nil => rfl
  | cons second others ih =>
    obtain ⟨hsecond, hothers⟩ := List.forall_mem_cons.1 h
    have hstem := head?_commonStem hsecond
    rw [List.foldl_cons, ih fun p hp => (hothers p hp).trans hstem.symm, hstem]

end Production

/-! ## The parts begin with different symbols -/

namespace Part

variable {ps : List Production}

/-- A part begins with the same symbol as the production where it stands, which is the first of its group. -/
theorem head?_of_of?_eq_some {p : Production} (hp : p ∈ ps) {part : Part} (h : of? ps p = some part) :
    part.head? = p.head? ∧ (group ps p).head? = some p := by
  have hmem : p ∈ group ps p := mem_group.2 ⟨hp, rfl⟩
  cases p with
  | nil =>
    cases h
    obtain ⟨first, others, hg⟩ := List.exists_cons_of_ne_nil (List.ne_nil_of_mem hmem)
    have hfirst : first.head? = none := (mem_group.1 (hg ▸ List.mem_cons_self : first ∈ group ps [])).2
    rw [hg, List.head?_eq_none_iff.1 hfirst]
    exact ⟨rfl, rfl⟩
  | cons s p =>
    unfold of? at h
    rw [if_neg (by simp)] at h
    match hg : group ps (s :: p) with
    | [] => simp [hg] at hmem
    | [only] =>
      rw [hg] at h hmem
      cases h
      rw [List.mem_singleton.1 hmem]
      exact ⟨rfl, rfl⟩
    | first :: second :: others =>
      simp only [hg] at h
      split at h
      · rename_i hfirst
        cases h
        rw [← hfirst]
        refine ⟨Production.head?_foldl_commonStem fun q hq => ?_, rfl⟩
        exact (mem_group.1 (hg ▸ List.mem_cons_of_mem first hq : q ∈ group ps (s :: p))).2
      · cases h

/-- The parts of productions that are all different begin with different symbols. -/
theorem nodup_heads_ofProductions (h : ps.Nodup) : ((ofProductions ps).map head?).Nodup := by
  rw [ofProductions, List.map_filterMap, List.Nodup, List.pairwise_filterMap]
  refine h.imp_of_mem fun {p q} hp hq hpq => ?_
  simp only [Option.map_eq_some_iff]
  rintro _ ⟨a, ha, rfl⟩ _ ⟨b, hb, rfl⟩ hab
  obtain ⟨hpa, hpfirst⟩ := head?_of_of?_eq_some hp ha
  obtain ⟨hqb, hqfirst⟩ := head?_of_of?_eq_some hq hb
  have hgroup : group ps p = group ps q := by rw [group, group, ← hpa, hab, hqb]
  rw [hgroup, hqfirst] at hpfirst
  cases hpfirst
  exact hpq rfl

/-- The stem of a group that was put together is not empty. -/
theorem stem_ne_nil {stem : Production} {remainders : List Production} (h : .shared stem remainders ∈ ofProductions ps) :
    stem ≠ [] := by
  obtain ⟨p, hp, hof⟩ := List.mem_filterMap.1 h
  have hhead := (head?_of_of?_eq_some hp hof).1
  cases p with
  | nil => cases hof
  | cons s p =>
    rintro rfl
    cases hhead

/-! ## What the parts leave to do -/

/-- The productions that a part stands for. -/
def members : Part → List Production
  | alone p => [p]
  | shared stem remainders => remainders.map (stem ++ ·)

/-- How much a part leaves to do: a fresh nonterminal and the symbols of its productions. -/
def work : Part → Nat
  | alone _ => 0
  | shared _ remainders => 1 + remainders.flatten.length

/-- The members of a part are some of the productions. -/
theorem members_sublist {part : Part} (h : part ∈ ofProductions ps) : part.members.Sublist ps := by
  obtain ⟨p, hp, hof⟩ := List.mem_filterMap.1 h
  rcases of?_cases ps p with ha | ⟨first, second, others, -, hg, hs⟩
  · rw [ha] at hof
    cases hof
    exact List.singleton_sublist.2 hp
  · rw [hs] at hof
    split at hof
    · cases hof
      have hmembers : (together first (second :: others)).members = group ps p := by
        rw [hg, together, members, List.map_map]
        refine (List.map_congr_left fun q hq => ?_).trans (List.map_id _)
        obtain ⟨r, hr⟩ := Production.foldl_commonStem_prefix first (second :: others) q hq
        rw [Function.comp_apply, ← hr, List.drop_left, id]
      rw [hmembers]
      exact List.filter_sublist
    · cases hof

/-- The members of a part begin as the part does. -/
theorem head?_of_mem_members {part : Part} (h : part ∈ ofProductions ps) : ∀ p ∈ part.members, p.head? = part.head? := by
  cases part with
  | alone p => exact fun q hq => by rw [List.mem_singleton.1 hq]; rfl
  | shared stem remainders =>
    intro p hp
    obtain ⟨r, -, rfl⟩ := List.mem_map.1 hp
    exact List.head?_append_of_ne_nil stem (stem_ne_nil h)

/-- No part leaves more to do than the symbols of its members. -/
theorem work_le {part : Part} (h : part ∈ ofProductions ps) : part.work ≤ part.members.flatten.length := by
  cases part with
  | alone p => exact Nat.zero_le _
  | shared stem remainders =>
    have hstem := List.length_pos_of_ne_nil (stem_ne_nil h)
    have hremainders := List.length_pos_of_ne_nil (mem_of_shared_mem h).1
    have hlength : (remainders.map (stem ++ ·)).flatten.length =
        remainders.length * stem.length + remainders.flatten.length := by
      simp [List.length_flatten, Function.comp_def]
    rw [work, members, hlength]
    exact Nat.add_le_add_right (Nat.mul_pos hremainders hstem) _

/-- The members of the parts are the productions, each once. -/
theorem members_perm (h : ps.Nodup) : ((ofProductions ps).flatMap members).Perm ps := by
  have hnodup : ((ofProductions ps).flatMap members).Nodup := by
    refine List.nodup_flatMap.2 ⟨fun part hpart => h.sublist (members_sublist hpart), ?_⟩
    refine (List.pairwise_map.1 (nodup_heads_ofProductions h)).imp_of_mem fun ha hb hab => ?_
    intro p hpa hpb
    exact hab ((head?_of_mem_members ha p hpa).symm.trans (head?_of_mem_members hb p hpb))
  refine (List.perm_ext_iff_of_nodup hnodup h).2 fun p => ?_
  rw [List.mem_flatMap]
  constructor
  · rintro ⟨part, hpart, hp⟩
    exact (members_sublist hpart).mem hp
  · intro hp
    rcases alone_mem_or_shared_mem hp with ha | ⟨stem, remainders, hs, r, hr, rfl⟩
    · exact ⟨.alone p, ha, List.mem_singleton_self p⟩
    · exact ⟨.shared stem remainders, hs, List.mem_map_of_mem hr⟩

/-- The parts together leave no more to do than the symbols of the productions. -/
theorem sum_work_le (h : ps.Nodup) : ((ofProductions ps).map work).sum ≤ ps.flatten.length := by
  have hlength : ∀ parts : List Part,
      (parts.flatMap members).flatten.length = (parts.map fun part => part.members.flatten.length).sum := by
    intro parts
    induction parts with
    | nil => rfl
    | cons part parts ih => rw [List.flatMap_cons, List.flatten_append, List.length_append, ih, List.map_cons, List.sum_cons]
  calc ((ofProductions ps).map work).sum
    _ ≤ ((ofProductions ps).map fun part => part.members.flatten.length).sum := List.sum_le_sum fun _ hpart => work_le hpart
    _ = ((ofProductions ps).flatMap members).flatten.length := (hlength _).symm
    _ = ps.flatten.length := (members_perm h).flatten.length_eq

end Part

/-! ## The queue -/

namespace Grammar

theorem nodup_productionsOf (g : Grammar) (nt : Nonterminal) : (g.productionsOf nt).Nodup := g.rules.nodup_productionsOf nt

/-- An undeclared nonterminal has no production to factor. -/
theorem headsDiffer_of_not_declared {g : Grammar} {nt : Nonterminal} (h : nt ∉ g.declared) :
    HeadsDiffer (g.productionsOf nt) := by
  rw [productionsOf_of_not_declared h]
  exact List.nodup_nil

/-- What stands in the queue is declared, and whatever does not is factored. -/
structure Awaits (g : Grammar) (nts : List Nonterminal) : Prop where
  nodup : nts.Nodup
  declared : ∀ nt ∈ nts, nt ∈ g.declared
  settled : ∀ nt ∉ nts, HeadsDiffer (g.productionsOf nt)

/-- How much is left to do: the nonterminals of the queue and the symbols of their productions. -/
def work (g : Grammar) (nts : List Nonterminal) : Nat := (nts.map fun nt => 1 + (g.productionsOf nt).flatten.length).sum

theorem work_cons (g : Grammar) (nt : Nonterminal) (nts : List Nonterminal) :
    g.work (nt :: nts) = 1 + (g.productionsOf nt).flatten.length + g.work nts := List.sum_cons

/-- Work is counted by productions alone. -/
theorem work_congr {g h : Grammar} {nts : List Nonterminal} (hsame : ∀ nt ∈ nts, h.productionsOf nt = g.productionsOf nt) :
    h.work nts = g.work nts := by
  rw [work, work, List.map_congr_left fun nt hnt => by rw [hsame nt hnt]]

/-- A fresh nonterminal adds itself and the symbols of its productions to the work. -/
theorem work_addFresh_le {g : Grammar} {nts : List Nonterminal} (h : ∀ nt ∈ nts, nt ∈ g.declared) (origin : Nonterminal)
    (ps : List Production) :
    (g.addFresh origin ps).work (nts ++ [g.freshNonterminal]) ≤ g.work nts + (1 + ps.flatten.length) := by
  have hold : (g.addFresh origin ps).work nts = g.work nts := work_congr fun nt hnt => by
    rw [productionsOf_addFresh, if_neg (ne_freshNonterminal_of_declared (h nt hnt))]
  have hnew : (distinct ps).flatten.length ≤ ps.flatten.length := (distinct_sublist ps).flatten.length_le
  rw [work, List.map_append, List.sum_append, ← work, hold, List.map_singleton, List.sum_singleton, productionsOf_addFresh,
    if_pos rfl]
  exact Nat.add_le_add_left (Nat.add_le_add_left hnew 1) _

namespace Awaits

variable {g : Grammar} {nts : List Nonterminal}

/-- A fresh nonterminal waits. -/
theorem addFresh (h : Awaits g nts) (origin : Nonterminal) (ps : List Production) :
    Awaits (g.addFresh origin ps) (nts ++ [g.freshNonterminal]) := by
  refine ⟨List.nodup_append.2 ⟨h.nodup, List.nodup_singleton _, fun nt hnt m hm => ?_⟩, fun nt hnt => ?_, fun nt hnt => ?_⟩
  · rw [List.mem_singleton.1 hm]
    exact ne_freshNonterminal_of_declared (h.declared nt hnt)
  · rw [mem_declared_addFresh]
    rw [List.mem_append, List.mem_singleton] at hnt
    exact hnt.symm.imp_right (h.declared nt)
  · rw [List.mem_append, List.mem_singleton, not_or] at hnt
    rw [productionsOf_addFresh, if_neg hnt.2]
    exact h.settled nt hnt.1

/-- A nonterminal that is given productions with different first symbols need not wait. -/
theorem setProductions {nt : Nonterminal} (h : Awaits g (nt :: nts)) {ps : List Production} (hps : HeadsDiffer ps) :
    Awaits (g.setProductions nt ps) nts := by
  refine ⟨h.nodup.of_cons, fun m hm => ?_, fun m hm => ?_⟩
  · exact mem_declared_setProductions.2 (.inr (h.declared m (List.mem_cons_of_mem nt hm)))
  · rw [productionsOf_setProductions]
    split
    · rwa [distinct_eq_self hps.of_map]
    · rename_i hne
      exact h.settled m (List.not_mem_cons_of_ne_of_not_mem hne hm)

/-- What waits is not changed by productions for another. -/
theorem work_setProductions {nt : Nonterminal} (h : Awaits g (nt :: nts)) (ps : List Production) :
    (g.setProductions nt ps).work nts = g.work nts :=
  work_congr fun m hm => by
    rw [productionsOf_setProductions, if_neg]
    rintro rfl
    exact (List.nodup_cons.1 h.nodup).1 hm

end Awaits

end Grammar

namespace Factoring

open Grammar (Awaits)

/-- Placing parts makes fresh nonterminals wait, and adds the work of the parts. -/
theorem awaits_place {nt : Nonterminal} (parts : List Part) {s : Factoring} (h : Awaits s.grammar (nt :: s.pending)) :
    Awaits (place nt parts s).1.grammar (nt :: (place nt parts s).1.pending) ∧
      (place nt parts s).1.grammar.work (place nt parts s).1.pending ≤
        s.grammar.work s.pending + (parts.map Part.work).sum := by
  induction parts generalizing s with
  | nil => exact ⟨h, Nat.le_refl _⟩
  | cons part parts ih =>
    rw [List.map_cons, List.sum_cons]
    cases part with
    | alone p =>
      rw [Part.work, Nat.zero_add]
      exact ih h
    | shared stem remainders =>
      have hwork := Grammar.work_addFresh_le (fun m hm => h.declared m (List.mem_cons_of_mem nt hm)) nt remainders
      obtain ⟨hawaits, hle⟩ := ih (s := s.introduce nt remainders) (h.addFresh nt remainders)
      refine ⟨hawaits, Nat.le_trans hle ?_⟩
      rw [Part.work, ← Nat.add_assoc]
      exact Nat.add_le_add_right hwork _

/-- The productions that parts become begin as the parts do. -/
theorem heads_place (nt : Nonterminal) {parts : List Part} (h : ∀ stem remainders, .shared stem remainders ∈ parts → stem ≠ [])
    (s : Factoring) : (place nt parts s).2.map List.head? = parts.map Part.head? := by
  induction parts generalizing s with
  | nil => rfl
  | cons part parts ih =>
    have ih := ih fun stem remainders hs => h stem remainders (List.mem_cons_of_mem part hs)
    cases part with
    | alone p => exact congrArg (p.head? :: ·) (ih s)
    | shared stem remainders =>
      rw [place, List.map_cons, List.map_cons, ih, List.head?_append_of_ne_nil stem (h stem remainders List.mem_cons_self)]
      rfl

/-- The productions that the parts of a nonterminal become begin with different symbols. -/
theorem headsDiffer_place (s : Factoring) (nt : Nonterminal) :
    HeadsDiffer (place nt (Part.ofProductions (s.grammar.productionsOf nt)) s).2 := by
  rw [HeadsDiffer, heads_place nt fun _ _ => Part.stem_ne_nil]
  exact Part.nodup_heads_ofProductions (s.grammar.nodup_productionsOf nt)

/-- Taking a nonterminal settles it, and adds no more work than there were symbols in its productions. -/
theorem awaits_take {nt : Nonterminal} {s : Factoring} (h : Awaits s.grammar (nt :: s.pending)) :
    Awaits (s.take nt).grammar (s.take nt).pending ∧
      (s.take nt).grammar.work (s.take nt).pending < s.grammar.work (nt :: s.pending) := by
  have hnodup := s.grammar.nodup_productionsOf nt
  obtain ⟨hawaits, hle⟩ := awaits_place (Part.ofProductions (s.grammar.productionsOf nt)) h
  have hwork := Part.sum_work_le hnodup
  refine ⟨hawaits.setProductions (headsDiffer_place s nt), ?_⟩
  rw [take, hawaits.work_setProductions, Grammar.work_cons]
  omega

/-- At any time, what stands in the queue is declared, and whatever does not is factored. -/
theorem awaits_run {s : Factoring} (h : Awaits s.grammar s.pending) (fuel : Nat) :
    Awaits (run fuel s).grammar (run fuel s).pending := by
  induction fuel generalizing s with
  | zero => exact h
  | succ fuel ih =>
    unfold run
    cases hpending : s.pending with
    | nil => exact h
    | cons nt rest =>
      rw [hpending] at h
      exact ih (awaits_take (s := { s with pending := rest }) h).1

/-- With fuel for the work that is left, the queue is empty at the end. -/
theorem pending_run_eq_nil {fuel : Nat} {s : Factoring} (h : Awaits s.grammar s.pending)
    (hfuel : s.grammar.work s.pending ≤ fuel) : (run fuel s).pending = [] := by
  -- every step lowers the work, and where no work is left the queue is empty
  induction fuel generalizing s with
  | zero =>
    unfold run
    cases hpending : s.pending with
    | nil => rfl
    | cons nt rest =>
      rw [hpending, Grammar.work_cons] at hfuel
      omega
  | succ fuel ih =>
    unfold run
    cases hpending : s.pending with
    | nil => exact hpending
    | cons nt rest =>
      rw [hpending] at h hfuel
      obtain ⟨hawaits, hlt⟩ := awaits_take (s := { s with pending := rest }) h
      exact ih hawaits (Nat.le_of_lt_succ (Nat.lt_of_lt_of_le hlt hfuel))

/-- Where the queue is empty, nothing more happens. -/
theorem run_of_pending_eq_nil {s : Factoring} (h : s.pending = []) (fuel : Nat) : run fuel s = s := by
  cases fuel with
  | zero => rfl
  | succ fuel =>
    unfold run
    rw [h]

/-- Fuel can be spent in two parts. -/
theorem run_add (fuel more : Nat) (s : Factoring) : run (fuel + more) s = run more (run fuel s) := by
  induction fuel generalizing s with
  | zero => rw [Nat.zero_add, run]
  | succ fuel ih =>
    cases hpending : s.pending with
    | nil => rw [run_of_pending_eq_nil hpending, run_of_pending_eq_nil hpending, run_of_pending_eq_nil hpending]
    | cons nt rest =>
      rw [Nat.succ_add, run, run, hpending]
      exact ih _

end Factoring

namespace Grammar

/-- A grammar is factored when the productions of every nonterminal begin with different symbols. -/
theorem isFactored_iff {g : Grammar} : g.isFactored = true ↔ ∀ nt, HeadsDiffer (g.productionsOf nt) := by
  have hheads : g.isFactored = true ↔ ∀ entry ∈ g.rules.entries, HeadsDiffer entry.2.toList := by
    rw [isFactored, List.all_eq_true]
    refine forall₂_congr fun entry _ => ?_
    rw [Part.headsDiffer_iff entry.2.nodup, List.all_eq_true]
    simp only [Bool.or_eq_true, List.isEmpty_iff, beq_iff_eq]
  rw [hheads]
  constructor
  · intro h nt
    by_cases hnt : nt ∈ g.declared
    · obtain ⟨entry, hentry, rfl⟩ := List.mem_map.1 hnt
      exact toList_of_mem_entries hentry ▸ h entry hentry
    · exact headsDiffer_of_not_declared hnt
  · intro h entry hentry
    rw [toList_of_mem_entries hentry]
    exact h entry.1

/-- All declared nonterminals and their symbols are the extent of a grammar. -/
theorem work_declared (g : Grammar) : g.work g.declared = g.extent := by
  have hsum : ∀ nts : List Nonterminal, g.work nts =
      nts.length + ((nts.flatMap fun nt => (g.productionsOf nt).map fun p => (nt, p)).flatMap Prod.snd).length := by
    intro nts
    induction nts with
    | nil => rfl
    | cons nt nts ih =>
      have hfirst : ((g.productionsOf nt).map fun p => (nt, p)).flatMap Prod.snd = (g.productionsOf nt).flatten := by
        rw [List.flatMap_map]
        exact List.flatMap_id'
      rw [work_cons, ih, List.flatMap_cons, List.flatMap_append, List.length_append, hfirst, List.length_cons]
      omega
  rw [hsum, extent, Rules.productions_eq, declared, Rules.declared, List.length_map]
  rfl

/-- At the beginning all declared nonterminals wait. -/
theorem awaits_declared (g : Grammar) : Awaits g g.declared :=
  ⟨g.rules.nodup, fun _ h => h, fun _ => headsDiffer_of_not_declared⟩

theorem pending_factoring (g : Grammar) : g.factoring.pending = [] :=
  Factoring.pending_run_eq_nil g.awaits_declared g.work_declared.le

/-- Factoring leaves nothing to factor. -/
theorem isFactored_factored (g : Grammar) : g.factored.isFactored = true := by
  have hawaits : Awaits g.factored g.factoring.pending := Factoring.awaits_run g.awaits_declared g.extent
  rw [pending_factoring] at hawaits
  exact isFactored_iff.2 fun nt => hawaits.settled nt List.not_mem_nil

end Grammar

end TopDown
