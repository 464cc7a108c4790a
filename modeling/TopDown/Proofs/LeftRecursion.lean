import Mathlib.Data.Fintype.Card
import Mathlib.Data.Fintype.Sets
import TopDown.LeftRecursion.Detection
import TopDown.Proofs.Leading
import TopDown.Proofs.Trimming

/-!
# Left recursion, judged

What can stand at the beginning of a production: a nonterminal behind symbols that can all vanish. A grammar is not
left-recursive exactly when following such nonterminals ends wherever it starts, so a grammar that has no more of them than
another is not left-recursive if the other is not. Only declared nonterminals lead on, so following them goes on forever exactly
when it comes back, and then a nonterminal derives something that begins with itself.

Main statements: `leads_iff`, `leftRecursive_eq_false_iff`, `leftRecursive_iff_cycle` and `Trims.leftRecursive_eq_false`.
-/

namespace TopDown

namespace Grammar

open Production (reading)

/-- One nonterminal leads another when it begins it. -/
theorem leads_iff_begins {g : Grammar} {lead nt : Nonterminal} :
    g.Leads lead nt ↔ g.Begins (.nonterminal lead) (.nonterminal nt) := by
  rw [Leads, leadingNonterminals, List.mem_flatMap]
  simp only [← opens_nonterminal_iff]
  constructor
  · rintro ⟨p, hp, ho⟩
    exact Begins.production hp ho
  · intro h
    cases h with
    | production hp ho => exact ⟨_, hp, ho⟩

/-- One nonterminal leads another where it stands in a production behind symbols that derive the empty word. -/
theorem leads_iff {g : Grammar} {lead nt : Nonterminal} :
    g.Leads lead nt ↔
      ∃ before after, before ++ .nonterminal lead :: after ∈ g.productionsOf nt ∧ [] ∈ reading g.words before := by
  rw [leads_iff_begins]
  constructor
  · intro h
    cases h with
    | production hp ho =>
      obtain ⟨before, after, rfl, hb⟩ := ho
      exact ⟨before, after, hp, hb⟩
  · rintro ⟨before, after, hp, hb⟩
    exact Begins.production hp ⟨before, after, rfl, hb⟩

/-- What leads in a nonterminal is mentioned in one of its productions. -/
theorem Leads.exists_mention {g : Grammar} {lead nt : Nonterminal} (h : g.Leads lead nt) :
    ∃ p ∈ g.productionsOf nt, .nonterminal lead ∈ p := by
  obtain ⟨before, after, hp, -⟩ := leads_iff.1 h
  exact ⟨_, hp, List.mem_append_right before List.mem_cons_self⟩

/-- The clauses from which the grounded nonterminals follow. -/
def groundingClauses (g : Grammar) : List (Clause Nonterminal) :=
  g.declared.map fun nt => ⟨nt, (g.leadingNonterminals g.nullable nt).filter g.rules.contains⟩

/-- A declared nonterminal from which following leading nonterminals ends is grounded. -/
theorem mem_grounded_of_acc {g : Grammar} {nt : Nonterminal} (h : Acc g.Leads nt) (hd : nt ∈ g.declared) :
    nt ∈ g.grounded := by
  induction h with
  | intro nt _ ih =>
    have hc : ⟨nt, (g.leadingNonterminals g.nullable nt).filter g.rules.contains⟩ ∈ g.groundingClauses :=
      List.mem_map.2 ⟨nt, hd, rfl⟩
    refine mem_saturate hc fun lead hl => ?_
    obtain ⟨hl, hdl⟩ := List.mem_filter.1 hl
    exact ih lead hl (Rules.contains_eq_true_iff.1 hdl)

/-- A grammar is not left-recursive when following leading nonterminals ends wherever it starts. -/
theorem leftRecursive_eq_false_iff {g : Grammar} : g.leftRecursive = false ↔ ∀ nt, Acc g.Leads nt := by
  refine ⟨acc_leads, fun h => List.any_eq_false.2 fun nt hd => ?_⟩
  have hg := mem_grounded_of_acc (h nt) hd
  simpa using hg

/-! ## Cycles -/

/-- A chain of symbols that begins with a nonterminal is a chain of leading nonterminals. -/
theorem exists_transGen_leads {g : Grammar} {lead : Nonterminal} {t : Symbol}
    (h : Relation.TransGen g.Begins (.nonterminal lead) t) :
    ∃ nt, t = .nonterminal nt ∧ Relation.TransGen g.Leads lead nt := by
  induction h with
  | single h =>
    cases h with
    | @production nt p hp ho => exact ⟨nt, rfl, Relation.TransGen.single (leads_iff_begins.2 (Begins.production hp ho))⟩
  | tail _ h ih =>
    obtain ⟨k, rfl, hk⟩ := ih
    cases h with
    | @production nt p hp ho => exact ⟨nt, rfl, hk.tail (leads_iff_begins.2 (Begins.production hp ho))⟩

/-- One nonterminal derives, in one step or more, something that begins with another when the other leads in it, in one turn or
more. -/
theorem exists_derivesPlus_nonterminal_iff {g : Grammar} {nt lead : Nonterminal} :
    (∃ after, g.DerivesPlus [.nonterminal nt] (.nonterminal lead :: after)) ↔ Relation.TransGen g.Leads lead nt := by
  rw [exists_derivesPlus_cons_iff]
  constructor
  · intro h
    obtain ⟨k, hk, hchain⟩ := exists_transGen_leads h
    cases hk
    exact hchain
  · exact fun h => h.lift Symbol.nonterminal fun _ _ => leads_iff_begins.1

/-- Where no nonterminal leads in itself, following leading nonterminals ends: only declared ones lead on, and they are finitely
many. -/
theorem acc_leads_of_no_cycle {g : Grammar} (h : ∀ nt, ¬ Relation.TransGen g.Leads nt nt) (nt : Nonterminal) :
    Acc g.Leads nt := by
  let Before : { nt // nt ∈ g.declared } → { nt // nt ∈ g.declared } → Prop := fun a b => Relation.TransGen g.Leads a b
  have htrans : IsTrans _ Before := ⟨fun _ _ _ hab hbc => Relation.TransGen.trans hab hbc⟩
  have hirrefl : Std.Irrefl Before := ⟨fun a => h a⟩
  have hwf : WellFounded Before := Finite.wellFounded_of_trans_of_irrefl Before
  have hdeclared : ∀ a : { nt // nt ∈ g.declared }, Acc g.Leads a := by
    intro a
    induction a using hwf.induction with
    | _ a ih =>
      refine Acc.intro _ fun lead hl => ?_
      by_cases hd : lead ∈ g.declared
      · exact ih ⟨lead, hd⟩ (Relation.TransGen.single hl)
      · exact acc_leads_of_not_declared hd
  by_cases hd : nt ∈ g.declared
  · exact hdeclared ⟨nt, hd⟩
  · exact acc_leads_of_not_declared hd

/-- A grammar is left-recursive when a nonterminal leads in itself, in one turn or more. -/
theorem leftRecursive_iff_cycle {g : Grammar} : g.leftRecursive = true ↔ ∃ nt, Relation.TransGen g.Leads nt nt := by
  rw [← not_iff_not, Bool.not_eq_true, leftRecursive_eq_false_iff, not_exists]
  constructor
  · intro h nt
    exact (WellFounded.intro h).transGen.irrefl.irrefl nt
  · exact acc_leads_of_no_cycle

/-! ## Fewer productions -/

/-- A grammar with fewer productions has no more leading nonterminals. -/
theorem Leads.mono {g h : Grammar} (hsub : ∀ nt, ∀ p ∈ h.productionsOf nt, p ∈ g.productionsOf nt) {lead nt : Nonterminal}
    (hl : h.Leads lead nt) : g.Leads lead nt := by
  obtain ⟨before, after, hp, hb⟩ := leads_iff.1 hl
  have hb' : [] ∈ reading g.words before := Production.reading_mono (fun m _ w hw => words_mono hsub hw) [] hb
  exact leads_iff.2 ⟨before, after, hsub nt _ hp, hb'⟩

/-- Trimming makes no left recursion. -/
theorem Trims.leftRecursive_eq_false {g h : Grammar} (ht : Trims g h) (hg : g.leftRecursive = false) :
    h.leftRecursive = false := by
  rw [leftRecursive_eq_false_iff] at hg ⊢
  intro nt
  exact Subrelation.accessible (fun hl => Leads.mono (fun _ _ hp => ht.mem_of_mem hp) hl) (hg nt)

/-- Without empty productions a nonterminal only leads where a production begins with it. -/
theorem leads_iff_of_no_empty {g : Grammar} (hg : ∀ nt, [] ∉ g.productionsOf nt) {lead nt : Nonterminal} :
    g.Leads lead nt ↔ ∃ after, .nonterminal lead :: after ∈ g.productionsOf nt := by
  rw [leads_iff]
  constructor
  · rintro ⟨before, after, hp, hb⟩
    cases before with
    | nil => exact ⟨after, hp⟩
    | cons s before =>
      obtain ⟨m, -, hm⟩ := Production.nil_mem_reading_iff.1 hb s List.mem_cons_self
      exact absurd hm (nil_not_mem_words hg m)
  · rintro ⟨after, hp⟩
    exact ⟨[], after, hp, Production.mem_reading_nil.2 rfl⟩

end Grammar

end TopDown
