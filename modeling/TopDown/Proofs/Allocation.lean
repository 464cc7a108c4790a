import TopDown.Proofs.Alike
import TopDown.Proofs.Growth
import TopDown.Proofs.Numbered

/-!
# How many numbers are taken

A fresh nonterminal has the number after the largest in use, so a transformation that introduces some takes as many numbers as it
introduces nonterminals: what it puts into productions was mentioned before or is fresh, and nothing else raises the largest
number in use. A factoring introduces fewer nonterminals than there are productions, an elimination of left recursion no more than
there are nonterminals. So the numbers last when that many are left behind the largest in use.

Main statements: `maxNonterminal_factored_le`, `maxNonterminal_of_withoutLeftRecursion_le` and `numbersSuffice_of_lt`.
-/

namespace TopDown

/-- A production mentions nonterminals up to a number only. -/
def Production.UpTo (n : Nat) (p : Production) : Prop := ∀ m, .nonterminal m ∈ p → m ≤ n

theorem Production.UpTo.mono {n k : Nat} {p : Production} (h : UpTo n p) (hnk : n ≤ k) : UpTo k p := fun m hm =>
  Nat.le_trans (h m hm) hnk

theorem Production.UpTo.append {n : Nat} {p q : Production} (hp : UpTo n p) (hq : UpTo n q) : UpTo n (p ++ q) :=
  fun m hm => (List.mem_append.1 hm).elim (hp m) (hq m)

theorem Production.upTo_singleton {n : Nat} {m : Nonterminal} (h : m ≤ n) : UpTo n [.nonterminal m] := fun k hk => by
  cases List.mem_singleton.1 hk
  exact h

open Production (UpTo)

namespace Grammar

variable {g h : Grammar} {n : Nat}

/-- The largest number in use is no more than a bound of everything in use. -/
theorem maxNonterminal_le (hstart : g.start ≤ n) (hdeclared : ∀ nt ∈ g.declared, nt ≤ n) (hnamed : ∀ nt ∈ g.names.named, nt ≤ n)
    (hps : ∀ nt, ∀ p ∈ g.productionsOf nt, UpTo n p) : g.maxNonterminal ≤ n := by
  refine foldl_max_le hstart fun m hm => ?_
  rcases List.mem_append.1 hm with hm | hm
  · exact (List.mem_append.1 hm).elim (hdeclared m) (hnamed m)
  · obtain ⟨⟨nt, m⟩, hmention, rfl⟩ := List.mem_map.1 hm
    obtain ⟨p, hp, hmp⟩ := mem_mentions.1 hmention
    exact hps nt p hp m hmp

theorem le_maxNonterminal_of_mem_named {m : Nonterminal} (hm : m ∈ g.names.named) : m ≤ g.maxNonterminal :=
  Nat.le_of_lt_succ (lt_freshNonterminal_of_mem_named hm)

theorem upTo_maxNonterminal {nt : Nonterminal} {p : Production} (hp : p ∈ g.productionsOf nt) : UpTo g.maxNonterminal p :=
  fun _ hm => le_maxNonterminal_of_mention hp hm

/-- Productions that mention nothing larger do not raise the largest number in use. -/
theorem maxNonterminal_setProductions_le {nt : Nonterminal} {ps : List Production} (hg : g.maxNonterminal ≤ n) (hnt : nt ≤ n)
    (hps : ∀ p ∈ ps, UpTo n p) : (g.setProductions nt ps).maxNonterminal ≤ n := by
  refine maxNonterminal_le (Nat.le_trans g.start_le_maxNonterminal hg) (fun m hm => ?_)
    (fun m hm => Nat.le_trans (le_maxNonterminal_of_mem_named (g := g) hm) hg) fun m p hp => ?_
  · rcases mem_declared_setProductions.1 hm with rfl | hm
    · exact hnt
    · exact Nat.le_trans (le_maxNonterminal_of_declared hm) hg
  · rw [productionsOf_setProductions] at hp
    split at hp
    · exact hps p (mem_distinct.1 hp)
    · exact (upTo_maxNonterminal hp).mono hg

/-- A fresh nonterminal takes one number. -/
theorem maxNonterminal_addFresh_le {origin : Nonterminal} {ps : List Production} (hg : g.maxNonterminal ≤ n)
    (hps : ∀ p ∈ ps, UpTo (n + 1) p) : (g.addFresh origin ps).maxNonterminal ≤ n + 1 := by
  have hfresh : g.freshNonterminal ≤ n + 1 := Nat.succ_le_succ hg
  refine maxNonterminal_le (Nat.le_succ_of_le (Nat.le_trans g.start_le_maxNonterminal hg)) (fun m hm => ?_) (fun m hm => ?_)
    fun m p hp => ?_
  · rcases mem_declared_addFresh.1 hm with rfl | hm
    · exact hfresh
    · exact Nat.le_succ_of_le (Nat.le_trans (le_maxNonterminal_of_declared hm) hg)
  · rw [named_addFresh] at hm
    rcases List.mem_append.1 hm with hm | hm
    · exact Nat.le_succ_of_le (Nat.le_trans (le_maxNonterminal_of_mem_named hm) hg)
    · rw [List.mem_singleton.1 hm]
      exact hfresh
  · rw [productionsOf_addFresh] at hp
    split at hp
    · exact hps p (mem_distinct.1 hp)
    · exact (upTo_maxNonterminal hp).mono (Nat.le_succ_of_le hg)

/-- The numbers last when the largest in use at the end fits. -/
theorem numbersLast_of_lt (hfits : h.maxNonterminal < UInt32.size) : NumbersLast g h := fun _ hnt =>
  .inr (Nat.lt_of_le_of_lt (le_maxNonterminal_of_mem_named hnt) hfits)

end Grammar

/-! ## Factoring -/

namespace Factoring

open Grammar (Awaits)

/-- Placing parts takes as many numbers as nonterminals are introduced. -/
theorem maxNonterminal_place_le (nt : Nonterminal) {n : Nat} {parts : List Part}
    (halone : ∀ p, .alone p ∈ parts → UpTo n p)
    (hshared : ∀ stem remainders, .shared stem remainders ∈ parts → UpTo n stem ∧ ∀ r ∈ remainders, UpTo n r) {s : Factoring}
    (hs : s.grammar.maxNonterminal ≤ n) :
    ∃ k, (place nt parts s).1.introduced = s.introduced + k ∧ (place nt parts s).1.grammar.maxNonterminal ≤ n + k ∧
      ∀ p ∈ (place nt parts s).2, UpTo (n + k) p := by
  induction parts generalizing s n with
  | nil => exact ⟨0, rfl, hs, fun p hp => nomatch hp⟩
  | cons part parts ih =>
    have halone' : ∀ p, .alone p ∈ parts → UpTo n p := fun p hp => halone p (List.mem_cons_of_mem part hp)
    have hshared' := fun stem remainders hp => hshared stem remainders (List.mem_cons_of_mem part hp)
    cases part with
    | alone p =>
      obtain ⟨k, hk, hmax, hps⟩ := ih halone' hshared' hs
      refine ⟨k, hk, hmax, List.forall_mem_cons.2 ⟨?_, hps⟩⟩
      exact (halone p List.mem_cons_self).mono (Nat.le_add_right n k)
    | shared stem remainders =>
      obtain ⟨hstem, hremainders⟩ := hshared stem remainders List.mem_cons_self
      have hfresh : (s.introduce nt remainders).grammar.maxNonterminal ≤ n + 1 :=
        Grammar.maxNonterminal_addFresh_le hs fun r hr => (hremainders r hr).mono (Nat.le_succ n)
      obtain ⟨k, hk, hmax, hps⟩ := ih (fun p hp => (halone' p hp).mono (Nat.le_succ n))
        (fun stem remainders hp => ⟨(hshared' stem remainders hp).1.mono (Nat.le_succ n), fun r hr =>
          ((hshared' stem remainders hp).2 r hr).mono (Nat.le_succ n)⟩) hfresh
      have hsum : n + 1 + k = n + (k + 1) := by omega
      rw [hsum] at hmax hps
      refine ⟨k + 1, ?_, hmax, List.forall_mem_cons.2 ⟨?_, hps⟩⟩
      · exact hk.trans (Nat.add_right_comm s.introduced 1 k)
      · have hlast : s.grammar.freshNonterminal ≤ n + (k + 1) := Nat.le_trans (Nat.succ_le_succ hs) (by omega)
        exact (hstem.mono (Nat.le_add_right n _)).append (Production.upTo_singleton hlast)

/-- Taking a nonterminal takes as many numbers as nonterminals are introduced. -/
theorem maxNonterminal_take_le {s : Factoring} {nt : Nonterminal} (hnt : nt ≤ s.grammar.maxNonterminal) :
    ∃ k, (s.take nt).introduced = s.introduced + k ∧
      (s.take nt).grammar.maxNonterminal ≤ s.grammar.maxNonterminal + k := by
  have halone : ∀ p, .alone p ∈ Part.ofProductions (s.grammar.productionsOf nt) → UpTo s.grammar.maxNonterminal p :=
    fun p hp => Grammar.upTo_maxNonterminal (Part.mem_of_alone_mem hp)
  have hshared : ∀ stem remainders, .shared stem remainders ∈ Part.ofProductions (s.grammar.productionsOf nt) →
      UpTo s.grammar.maxNonterminal stem ∧ ∀ r ∈ remainders, UpTo s.grammar.maxNonterminal r := by
    intro stem remainders hp
    obtain ⟨hne, hmem⟩ := Part.mem_of_shared_mem hp
    have hwhole : ∀ r ∈ remainders, UpTo s.grammar.maxNonterminal (stem ++ r) := fun r hr =>
      Grammar.upTo_maxNonterminal (hmem r hr)
    obtain ⟨r, hr⟩ := List.exists_mem_of_ne_nil _ hne
    exact ⟨fun m hm => hwhole r hr m (List.mem_append_left r hm), fun r hr m hm =>
      hwhole r hr m (List.mem_append_right stem hm)⟩
  obtain ⟨k, hk, hmax, hps⟩ := maxNonterminal_place_le nt halone hshared (Nat.le_refl _)
  exact ⟨k, hk, Grammar.maxNonterminal_setProductions_le hmax (Nat.le_trans hnt (Nat.le_add_right _ k)) hps⟩

/-- A factoring takes as many numbers as nonterminals are introduced. -/
theorem maxNonterminal_run_le {s : Factoring} (h : Awaits s.grammar s.pending) (fuel : Nat) :
    ∃ k, (run fuel s).introduced = s.introduced + k ∧
      (run fuel s).grammar.maxNonterminal ≤ s.grammar.maxNonterminal + k := by
  induction fuel generalizing s with
  | zero => exact ⟨0, rfl, Nat.le_refl _⟩
  | succ fuel ih =>
    unfold run
    cases hpending : s.pending with
    | nil => exact ⟨0, rfl, Nat.le_refl _⟩
    | cons nt rest =>
      rw [hpending] at h
      obtain ⟨k, hk, hmax⟩ := maxNonterminal_take_le (s := { s with pending := rest })
        (Grammar.le_maxNonterminal_of_declared (h.declared nt List.mem_cons_self))
      obtain ⟨more, hmore, hmaxmore⟩ := ih (awaits_take (s := { s with pending := rest }) h).1
      refine ⟨k + more, ?_, ?_⟩
      · rw [hmore, hk, Nat.add_assoc]
      · rw [← Nat.add_assoc]
        exact Nat.le_trans hmaxmore (Nat.add_le_add_right hmax more)

end Factoring

namespace Grammar

theorem maxNonterminal_factored_le (g : Grammar) : g.factored.maxNonterminal ≤ g.maxNonterminal + g.factoring.introduced := by
  obtain ⟨k, hk, hmax⟩ := Factoring.maxNonterminal_run_le (s := ⟨g, g.declared, 0⟩) g.awaits_declared g.extent
  have hintroduced : g.factoring.introduced = k := hk.trans (Nat.zero_add k)
  rw [hintroduced]
  exact hmax

/-- The numbers last for a factoring when there are left as many as there are productions. -/
theorem numbersLast_factored (hfits : g.maxNonterminal + g.productionCount < UInt32.size) : NumbersLast g g.factored := by
  obtain ⟨-, -, -, -, hcount⟩ := g.factored_counts
  have hfew : g.factoring.introduced ≤ g.productionCount := Nat.le_trans (Nat.le_add_right _ _) hcount
  exact numbersLast_of_lt
    (Nat.lt_of_le_of_lt (Nat.le_trans g.maxNonterminal_factored_le (Nat.add_le_add_left hfew _)) hfits)

end Grammar

/-! ## Left recursion -/

namespace Elimination

open Grammar (maxNonterminal_setProductions_le upTo_maxNonterminal)

/-- A nonterminal takes one number at most when its direct recursion is removed. -/
theorem maxNonterminal_removeDirect_le {e : Elimination} {n : Nat} {nt : Nonterminal}
    (he : e.grammar.maxNonterminal ≤ n) (hnt : nt ≤ n) :
    (e.removeDirect nt).grammar.maxNonterminal ≤ n + 1 := by
  have hown : ∀ p ∈ e.grammar.productionsOf nt, UpTo n p := fun p hp => (upTo_maxNonterminal hp).mono he
  have hothers : ∀ p ∈ e.grammar.nonrecursiveOf nt, UpTo n p := fun p hp => hown p (Grammar.mem_nonrecursiveOf.1 hp).1
  have htails : ∀ t ∈ e.grammar.recursiveTailsOf nt, UpTo n t := fun t ht m hm =>
    hown _ (Grammar.mem_recursiveTailsOf.1 ht).1 m (List.mem_cons_of_mem _ hm)
  have hfresh : e.grammar.freshNonterminal ≤ n + 1 := Nat.succ_le_succ he
  have hwithTail : ∀ {ps : List Production}, (∀ p ∈ ps, UpTo n p) →
      ∀ p ∈ withTail e.grammar.freshNonterminal ps, UpTo (n + 1) p := by
    intro ps hps q hq
    rcases Production.mem_withTail.1 hq with hq | ⟨p, hp, rfl⟩
    · exact (hps q hq).mono (Nat.le_succ n)
    · exact ((hps p hp).mono (Nat.le_succ n)).append (Production.upTo_singleton hfresh)
  cases hempty : (e.grammar.recursiveTailsOf nt).isEmpty with
  | true =>
    simp only [removeDirect, hempty, if_true]
    exact Nat.le_succ_of_le (maxNonterminal_setProductions_le he hnt hothers)
  | false =>
    simp only [removeDirect, hempty, Bool.false_eq_true, if_false]
    exact maxNonterminal_setProductions_le (Grammar.maxNonterminal_addFresh_le he (hwithTail htails)) (Nat.le_succ_of_le hnt)
      (hwithTail hothers)

/-- An elimination takes no more numbers than it takes nonterminals. -/
theorem maxNonterminal_run_le {e : Elimination} {n : Nat} (he : e.grammar.maxNonterminal ≤ n)
    {nts : List Nonterminal} (hnts : ∀ nt ∈ nts, nt ≤ n) (earlier : List Nonterminal) :
    (e.run earlier nts).grammar.maxNonterminal ≤ n + nts.length := by
  induction nts generalizing e earlier n with
  | nil => exact he
  | cons nt nts ih =>
    obtain ⟨hnt, hrest⟩ := List.forall_mem_cons.1 hnts
    have hsubstituted : (e.grammar.substituted earlier nt).maxNonterminal ≤ n := by
      refine maxNonterminal_setProductions_le he hnt fun p hp m hm => ?_
      obtain ⟨q, hmq, hq | ⟨k, hq⟩⟩ := Grammar.exists_mem_of_foldl_substituteLeading hp hm
      · exact Nat.le_trans (Grammar.le_maxNonterminal_of_mention hq hmq) he
      · exact Nat.le_trans (Grammar.le_maxNonterminal_of_mention hq hmq) he
    have htaken : (e.take earlier nt).grammar.maxNonterminal ≤ n + 1 :=
      maxNonterminal_removeDirect_le (e := { e with grammar := e.grammar.substituted earlier nt }) hsubstituted hnt
    have hall := ih htaken (fun m hm => Nat.le_succ_of_le (hrest m hm)) (earlier ++ [nt])
    rw [List.length_cons]
    exact Nat.le_trans hall (by omega)

end Elimination

namespace Grammar

variable {g h : Grammar}

theorem maxNonterminal_of_withoutLeftRecursion_le (hh : g.withoutLeftRecursion = .ok h) :
    h.maxNonterminal ≤ g.maxNonterminal + g.rules.size := by
  obtain ⟨-, rfl⟩ := withoutLeftRecursion_eq_ok_iff.1 hh
  have hrun := Elimination.maxNonterminal_run_le (e := ⟨g, []⟩) (Nat.le_refl _)
    (fun nt hnt => le_maxNonterminal_of_declared (g := g) (mem_distanceOrder.1 hnt)) []
  rw [g.distanceOrder_perm.length_eq] at hrun
  exact Nat.le_trans hrun (Nat.add_le_add_left g.length_declared_le_size _)

/-- The numbers last for an elimination of left recursion when there are left as many as there are nonterminals. -/
theorem numbersLast_of_withoutLeftRecursion (hh : g.withoutLeftRecursion = .ok h)
    (hfits : g.maxNonterminal + g.rules.size < UInt32.size) : NumbersLast g h :=
  numbersLast_of_lt (Nat.lt_of_le_of_lt (maxNonterminal_of_withoutLeftRecursion_le hh) hfits)

/-! ## Normalization -/

theorem maxNonterminal_withEmptyWord_le (g : Grammar) : g.withEmptyWord.maxNonterminal ≤ g.maxNonterminal + 1 := by
  let added := g.addFresh g.start [[.nonterminal g.start], []]
  have hadded : added.maxNonterminal ≤ g.maxNonterminal + 1 := by
    refine maxNonterminal_addFresh_le (Nat.le_refl _) fun p hp => ?_
    rcases List.mem_cons.1 hp with rfl | hp
    · exact Production.upTo_singleton (Nat.le_succ_of_le g.start_le_maxNonterminal)
    · rw [List.mem_singleton.1 hp]
      exact fun m hm => nomatch hm
  refine maxNonterminal_le (Nat.le_refl _) (fun m hm => ?_) (fun m hm => ?_) fun m p hp => ?_
  · exact Nat.le_trans (le_maxNonterminal_of_declared (g := added) hm) hadded
  · exact Nat.le_trans (le_maxNonterminal_of_mem_named (g := added) hm) hadded
  · exact (upTo_maxNonterminal (g := added) hp).mono hadded

/-- Trimming a reduced grammar leaves no larger number in use. -/
theorem Trims.maxNonterminal_le {clean : Grammar} (ht : Trims g.reduced clean) :
    clean.maxNonterminal ≤ g.maxNonterminal ∧ clean.rules.size ≤ g.rules.size := by
  have hdeclared : clean.declared.Sublist g.declared := by
    have hsub := ht.declared_sublist
    rwa [reduced, declared_withoutUnits, declared_withoutEmpty] at hsub
  have hle : ∀ nt ∈ clean.declared, nt ≤ g.maxNonterminal := fun nt hnt => le_maxNonterminal_of_declared (hdeclared.subset hnt)
  have hnames : clean.names = g.names := by
    rw [ht.1]
    rfl
  refine ⟨Grammar.maxNonterminal_le (hle _ ht.wellFormed.start) hle (fun nt hnt => ?_) fun nt p hp m hm =>
    hle m (ht.wellFormed.mention nt p hp m hm), ?_⟩
  · rw [hnames] at hnt
    exact le_maxNonterminal_of_mem_named hnt
  · have hlength := hdeclared.length_le
    simpa [declared, Rules.declared, Rules.size] using hlength

/-- The removal of left recursion takes one number for the fresh start and no more for tails than there are nonterminals. -/
theorem maxNonterminal_of_descending_le (hh : g.descending = .ok h) :
    h.maxNonterminal ≤ g.maxNonterminal + g.rules.size + 1 := by
  rcases descending_cases hh with ⟨-, -, rfl⟩ | ⟨clean, result, ht, hresult, rfl⟩
  · have honly : g.onlyEmptyWord.maxNonterminal ≤ g.maxNonterminal := by
      refine maxNonterminal_le g.start_le_maxNonterminal (fun nt hnt => ?_) (fun nt hnt => ?_) fun nt p hp m hm => ?_
      · rw [declared_onlyEmptyWord] at hnt
        rw [List.mem_singleton.1 hnt]
        exact g.start_le_maxNonterminal
      · exact le_maxNonterminal_of_mem_named (g := g) hnt
      · rw [(mem_productionsOf_onlyEmptyWord.1 hp).2] at hm
        exact nomatch hm
    exact Nat.le_succ_of_le (Nat.le_trans honly (Nat.le_add_right _ _))
  · obtain ⟨hclean, hsize⟩ := ht.maxNonterminal_le
    have hresultmax : result.maxNonterminal ≤ g.maxNonterminal + g.rules.size :=
      Nat.le_trans (maxNonterminal_of_withoutLeftRecursion_le hresult) (Nat.add_le_add hclean hsize)
    split
    · exact Nat.le_trans result.maxNonterminal_withEmptyWord_le (Nat.succ_le_succ hresultmax)
    · exact Nat.le_succ_of_le hresultmax

/-- The numbers suffice for a normalization when there are left as many as there are productions, and more than there are
nonterminals. -/
theorem numbersSuffice_of_lt (hrules : g.maxNonterminal + g.rules.size + 1 < UInt32.size)
    (hproductions : g.maxNonterminal + g.productionCount < UInt32.size) : NumbersSuffice g := by
  intro followed hfollow
  cases hroute : g.route with
  | leftRecursionRemoval =>
    rw [hroute] at hfollow
    exact numbersLast_of_lt (Nat.lt_of_le_of_lt (maxNonterminal_of_descending_le hfollow) hrules)
  | leftFactoring =>
    rw [hroute] at hfollow
    cases hfollow
    exact numbersLast_factored hproductions

end Grammar

end TopDown
