import Mathlib.Data.List.Nodup
import TopDown.LeftRecursion.DepthFirst
import TopDown.Proofs.LeftRecursion
import TopDown.Proofs.Sweeping

/-!
# Depth-first search, judged

The search is inside of nonterminals each of which led it to where it is, so that meeting one of them again closes a cycle. From
what it has left, following leading nonterminals ends: everything that such a nonterminal leads to was left before it. The
nonterminals that the search is inside of are different and declared, so the search never gets deeper than there are declared
nonterminals and one more. It therefore ends, and finds left recursion exactly where there is some.

Main statements: `Visit.run_spec`, `Visit.exists_run_eq_some` and `leftRecursiveByVisits_exact`.
-/

namespace TopDown

namespace Visit

variable {next : Nonterminal → List Nonterminal}

/-- One nonterminal is led to by another. -/
def Next (next : Nonterminal → List Nonterminal) (lead nt : Nonterminal) : Prop := lead ∈ next nt

/-- From everything that was left, following what it leads to ends. -/
def Settled (next : Nonterminal → List Nonterminal) (m : Marks) : Prop := ∀ nt ∈ m.done, Acc (Next next) nt

/-- A visit of these nonterminals went well: the search is inside of what it was before, it has left them and whatever it had left
before, and what it has left is settled. -/
structure Leaves (next : Nonterminal → List Nonterminal) (m m' : Marks) (nts : List Nonterminal) : Prop where
  visiting : m'.visiting = m.visiting
  kept : ∀ nt ∈ m.done, nt ∈ m'.done
  left : ∀ nt ∈ nts, nt ∈ m'.done
  settled : Settled next m'

/-- What an outcome says: there is a cycle, or these nonterminals were left. -/
def Means (next : Nonterminal → List Nonterminal) (m : Marks) (nts : List Nonterminal) : Option Visit → Prop
  | none => True
  | some .cycle => ∃ nt, Relation.TransGen (Next next) nt nt
  | some (.clear m') => Leaves next m m' nts

/-- What a visit is to do, wherever the search is: everything that it is inside of led to the nonterminal. -/
def Sound (next : Nonterminal → List Nonterminal) (visit : Marks → Nonterminal → Option Visit) : Prop :=
  ∀ m nt, Settled next m → (∀ v ∈ m.visiting, Relation.TransGen (Next next) nt v) → Means next m [nt] (visit m nt)

theorem Leaves.refl {m : Marks} (h : Settled next m) : Leaves next m m [] where
  visiting := rfl
  kept _ hk := hk
  left := by simp
  settled := h

theorem Leaves.cons {m m' m'' : Marks} {nt : Nonterminal} {nts : List Nonterminal} (h : Leaves next m m' [nt])
    (h' : Leaves next m' m'' nts) : Leaves next m m'' (nt :: nts) where
  visiting := h'.visiting.trans h.visiting
  kept k hk := h'.kept k (h.kept k hk)
  left := List.forall_mem_cons.2 ⟨h'.kept nt (h.left nt List.mem_cons_self), h'.left⟩
  settled := h'.settled

/-- Whatever was met before, a list goes on as what is left of it. -/
theorem Means.cons {m m' : Marks} {nt : Nonterminal} {nts : List Nonterminal} (h : Leaves next m m' [nt])
    {outcome : Option Visit} (houtcome : Means next m' nts outcome) : Means next m (nt :: nts) outcome := by
  match outcome with
  | none => trivial
  | some .cycle => exact houtcome
  | some (.clear m'') => exact h.cons houtcome

/-- Following what a nonterminal leads to, from inside of it, meets a cycle or leaves all of it. -/
theorem follow_spec {visit : Marks → Nonterminal → Option Visit} (hvisit : Sound next visit) {nt : Nonterminal}
    {leads : List Nonterminal} (hleads : ∀ lead ∈ leads, Next next lead nt) {m : Marks} (hm : Settled next m)
    (hnt : ∀ v ∈ m.visiting, Relation.ReflTransGen (Next next) nt v) : Means next m leads (follow visit m leads) := by
  induction leads generalizing m with
  | nil => exact Leaves.refl hm
  | cons lead leads ih =>
    obtain ⟨hlead, hrest⟩ := List.forall_mem_cons.1 hleads
    have hpath : ∀ v ∈ m.visiting, Relation.TransGen (Next next) lead v := fun v hv => Relation.TransGen.head' hlead (hnt v hv)
    unfold follow
    split
    · rename_i hvisiting
      exact ⟨lead, hpath lead (List.contains_iff_mem.1 hvisiting)⟩
    · split
      · rename_i hdone
        have hleaves : Leaves next m m [lead] :=
          ⟨rfl, fun _ h => h, fun _ h => List.mem_singleton.1 h ▸ List.contains_iff_mem.1 hdone, hm⟩
        exact (ih hrest hm hnt).cons hleaves
      · have hmeans := hvisit m lead hm hpath
        cases houtcome : visit m lead with
        | none => trivial
        | some outcome =>
          rw [houtcome] at hmeans
          cases outcome with
          | cycle => exact hmeans
          | clear m' =>
            have hleaves : Leaves next m m' [lead] := hmeans
            exact (ih hrest hleaves.settled (hleaves.visiting ▸ hnt)).cons hleaves

/-- A visit meets a cycle only where there is one, and leaves the nonterminal only where following what it leads to ends. -/
theorem run_spec (depth : Nat) : Sound next (run next depth) := by
  induction depth with
  | zero => exact fun _ _ _ _ => trivial
  | succ depth ih =>
    intro m nt hm hpath
    have hinside : ∀ v ∈ (m.enter nt).visiting, Relation.ReflTransGen (Next next) nt v :=
      List.forall_mem_cons.2 ⟨Relation.ReflTransGen.refl, fun v hv => (hpath v hv).to_reflTransGen⟩
    have hmeans : Means next (m.enter nt) (next nt) (follow (run next depth) (m.enter nt) (next nt)) :=
      follow_spec ih (fun _ hlead => hlead) hm hinside
    unfold run
    cases houtcome : follow (run next depth) (m.enter nt) (next nt) with
    | none => trivial
    | some outcome =>
      rw [houtcome] at hmeans
      cases outcome with
      | cycle => exact hmeans
      | clear m' =>
        have hleaves : Leaves next (m.enter nt) m' (next nt) := hmeans
        have hacc : Acc (Next next) nt := Acc.intro nt fun lead hlead => hleaves.settled lead (hleaves.left lead hlead)
        refine ⟨?_, fun k hk => List.mem_cons_of_mem nt (hleaves.kept k hk), fun k hk => ?_,
          List.forall_mem_cons.2 ⟨hacc, hleaves.settled⟩⟩
        · simp only [Marks.leave, hleaves.visiting, Marks.enter, List.erase_cons_head]
        · rw [List.mem_singleton.1 hk]
          exact List.mem_cons_self

/-- Visits from one nonterminal after the other tell whether there is a cycle, or else that following what they lead to ends. -/
theorem anyCycle_spec {visit : Marks → Nonterminal → Option Visit} (hvisit : Sound next visit) {nts : List Nonterminal}
    {m : Marks} (hm : Settled next m) (houtside : m.visiting = []) {answer : Bool} (h : anyCycle visit m nts = some answer) :
    if answer then ∃ nt, Relation.TransGen (Next next) nt nt else ∀ nt ∈ nts, Acc (Next next) nt := by
  induction nts generalizing m with
  | nil =>
    cases h
    exact fun nt hnt => nomatch hnt
  | cons nt nts ih =>
    have hcons : ∀ {m' : Marks}, Leaves next m m' [nt] → anyCycle visit m' nts = some answer →
        if answer then ∃ nt, Relation.TransGen (Next next) nt nt else ∀ k ∈ nt :: nts, Acc (Next next) k := by
      intro m' hleaves hrest
      have hall := ih hleaves.settled (hleaves.visiting.trans houtside) hrest
      cases answer with
      | true => exact hall
      | false => exact List.forall_mem_cons.2 ⟨hleaves.settled nt (hleaves.left nt List.mem_cons_self), hall⟩
    unfold anyCycle at h
    split at h
    · rename_i hdone
      exact hcons ⟨rfl, fun _ h => h, fun _ h => List.mem_singleton.1 h ▸ List.contains_iff_mem.1 hdone, hm⟩ h
    · have hmeans := hvisit m nt hm fun v hv => by
        rw [houtside] at hv
        cases hv
      cases houtcome : visit m nt with
      | none =>
        rw [houtcome] at h
        cases h
      | some outcome =>
        rw [houtcome] at h hmeans
        cases outcome with
        | cycle =>
          cases h
          exact hmeans
        | clear m' => exact hcons hmeans h

/-! ## Deep enough -/

/-- The search is inside of different nonterminals of a list. -/
def Within (nodes : List Nonterminal) (m : Marks) : Prop := m.visiting.Nodup ∧ m.visiting ⊆ nodes

/-- A visit comes to an end, inside of what it was before, wherever the search is inside of nonterminals of a list. -/
def Ends (nodes : List Nonterminal) (depth : Nat) (visit : Marks → Nonterminal → Option Visit) : Prop :=
  ∀ m nt, Within nodes m → nodes.length < depth + m.visiting.length → nt ∉ m.visiting →
    visit m nt = some .cycle ∨ ∃ m', visit m nt = some (.clear m') ∧ m'.visiting = m.visiting

/-- Following a list comes to an end when every visit does. -/
theorem exists_follow_eq_some {nodes : List Nonterminal} {depth : Nat} {visit : Marks → Nonterminal → Option Visit}
    (hvisit : Ends nodes depth visit) {leads : List Nonterminal} {m : Marks} (hm : Within nodes m)
    (hdepth : nodes.length < depth + m.visiting.length) :
    follow visit m leads = some .cycle ∨ ∃ m', follow visit m leads = some (.clear m') ∧ m'.visiting = m.visiting := by
  induction leads generalizing m with
  | nil => exact .inr ⟨m, rfl, rfl⟩
  | cons lead leads ih =>
    unfold follow
    split
    · exact .inl rfl
    · rename_i hvisiting
      split
      · exact ih hm hdepth
      · rcases hvisit m lead hm hdepth fun h => hvisiting (List.contains_iff_mem.2 h) with hcycle | ⟨m', hclear, hsame⟩
        · rw [hcycle]
          exact .inl rfl
        · rw [hclear]
          simp only [← hsame] at hdepth ⊢
          exact ih ⟨hsame ▸ hm.1, hsame ▸ hm.2⟩ hdepth

/-- A visit comes to an end when, deeper by as many nonterminals as the search is inside of, it is deeper than there are
nonterminals that lead on. -/
theorem exists_run_eq_some {nodes : List Nonterminal} (hnext : ∀ nt, next nt ≠ [] → nt ∈ nodes) (depth : Nat) :
    Ends nodes depth (run next depth) := by
  induction depth with
  | zero =>
    intro m nt hm hdepth hnt
    have hle := hm.1.length_le_of_subset hm.2
    omega
  | succ depth ih =>
    intro m nt hm hdepth hnt
    have hfollow : follow (run next depth) (m.enter nt) (next nt) = some .cycle ∨
        ∃ m', follow (run next depth) (m.enter nt) (next nt) = some (.clear m') ∧ m'.visiting = nt :: m.visiting := by
      by_cases hnil : next nt = []
      · rw [hnil]
        exact .inr ⟨m.enter nt, rfl, rfl⟩
      · refine exists_follow_eq_some ih ⟨List.nodup_cons.2 ⟨hnt, hm.1⟩, List.cons_subset.2 ⟨hnext nt hnil, hm.2⟩⟩ ?_
        simp only [Marks.enter, List.length_cons]
        omega
    unfold run
    rcases hfollow with hcycle | ⟨m', hclear, hvisiting⟩
    · rw [hcycle]
      exact .inl rfl
    · rw [hclear]
      refine .inr ⟨_, rfl, ?_⟩
      simp only [Marks.leave, hvisiting, List.erase_cons_head]

/-- Visits from one nonterminal after the other come to an end when every visit does. -/
theorem exists_anyCycle_eq_some {nodes : List Nonterminal} {depth : Nat} {visit : Marks → Nonterminal → Option Visit}
    (hvisit : Ends nodes depth visit) (hdepth : nodes.length < depth) {nts : List Nonterminal} {m : Marks}
    (houtside : m.visiting = []) : ∃ answer, anyCycle visit m nts = some answer := by
  induction nts generalizing m with
  | nil => exact ⟨false, rfl⟩
  | cons nt nts ih =>
    unfold anyCycle
    split
    · exact ih houtside
    · have hends := hvisit m nt ⟨houtside ▸ List.nodup_nil, houtside ▸ List.nil_subset nodes⟩ (by simpa [houtside] using hdepth)
        (houtside ▸ List.not_mem_nil)
      rcases hends with hcycle | ⟨m', hclear, hsame⟩
      · rw [hcycle]
        exact ⟨true, rfl⟩
      · rw [hclear]
        exact ih (hsame.trans houtside)

end Visit

namespace Grammar

/-- What leads depends on what is nullable, in whatever order that was found. -/
theorem leadingNonterminals_congr (g : Grammar) {nullable nullable' : List Nonterminal}
    (h : ∀ nt, nt ∈ nullable ↔ nt ∈ nullable') : g.leadingNonterminals nullable = g.leadingNonterminals nullable' := by
  funext nt
  exact List.flatMap_congr fun p _ => Production.leadingNonterminals_congr h p

/-- What the search answers is right, whatever its limit. -/
theorem leftRecursive_of_leftRecursiveByVisits {g : Grammar} {limit : Nat} {answer : Bool}
    (h : g.leftRecursiveByVisits limit = some answer) : g.leftRecursive = answer := by
  obtain ⟨found, hfound, hanswer⟩ := Option.bind_eq_some_iff.1 h
  rw [g.leadingNonterminals_congr (mem_nullableBySweeps_iff hfound)] at hanswer
  have hstart : Visit.Settled (g.leadingNonterminals g.nullable) .start := by simp [Visit.Settled, Marks.start]
  have hspec := Visit.anyCycle_spec (Visit.run_spec limit) hstart rfl hanswer
  cases answer with
  | true => exact leftRecursive_iff_cycle.2 hspec
  | false =>
    refine leftRecursive_eq_false_iff.2 fun nt => ?_
    by_cases hd : nt ∈ g.declared
    · exact hspec nt hd
    · exact acc_leads_of_not_declared hd

/-- The search answers when its limit is more than the number of declared nonterminals. -/
theorem leftRecursiveByVisits_eq {g : Grammar} {limit : Nat} (hlimit : g.rules.size < limit) :
    g.leftRecursiveByVisits limit = some g.leftRecursive := by
  obtain ⟨found, hfound⟩ := g.exists_run_productions Production.isNullable
  have hfound : g.nullableBySweeps limit = some found := hfound limit hlimit
  have hdepth : g.declared.length < limit := Nat.lt_of_le_of_lt g.length_declared_le_size hlimit
  have hnext : ∀ nt, g.leadingNonterminals found nt ≠ [] → nt ∈ g.declared := by
    intro nt hne
    obtain ⟨lead, hlead⟩ := List.exists_mem_of_ne_nil _ hne
    obtain ⟨p, hp, -⟩ := List.mem_flatMap.1 hlead
    exact declared_of_mem_productionsOf hp
  have hends : ∃ answer, Visit.anyCycle (Visit.run (g.leadingNonterminals found) limit) .start g.declared = some answer :=
    Visit.exists_anyCycle_eq_some (Visit.exists_run_eq_some hnext limit) hdepth rfl
  obtain ⟨answer, hanswer⟩ := hends
  have hvisits : g.leftRecursiveByVisits limit = some answer := Option.bind_eq_some_iff.2 ⟨found, hfound, hanswer⟩
  rw [leftRecursive_of_leftRecursiveByVisits hvisits]
  exact hvisits

/-- The depth-first search for left recursion ends: no more sweeps are made and it gets no deeper than there are declared
nonterminals and one more, and an answer that it gives is the same whatever the limit. It tells that there is left recursion
exactly when some declared nonterminal derives, in one step or more, something that begins with itself; what stood before it may
have been derived away. -/
theorem leftRecursiveByVisits_exact (g : Grammar) :
    (∀ limit, g.rules.size < limit → g.leftRecursiveByVisits limit = some g.leftRecursive) ∧
    (∀ limit answer, g.leftRecursiveByVisits limit = some answer → g.leftRecursive = answer) ∧
    (g.leftRecursive = true ↔
      ∃ nt ∈ g.declared, ∃ after, g.DerivesPlus [.nonterminal nt] (.nonterminal nt :: after)) := by
  refine ⟨fun _ => leftRecursiveByVisits_eq, fun _ _ => leftRecursive_of_leftRecursiveByVisits, ?_⟩
  rw [leftRecursive_iff_cycle]
  constructor
  · rintro ⟨nt, hcycle⟩
    obtain ⟨after, p, hp, h⟩ := exists_derivesPlus_nonterminal_iff.2 hcycle
    exact ⟨nt, declared_of_mem_productionsOf (step_singleton_iff.1 hp), after, p, hp, h⟩
  · rintro ⟨nt, -, h⟩
    exact ⟨nt, exists_derivesPlus_nonterminal_iff.1 h⟩

/-- A nonterminal that can vanish hides the recursion of the second, which is found from the first; the fourth is not declared. -/
example : Grammar.leftRecursiveByVisits
    ⟨0, .ofList [(0, [[.nonterminal 1, .terminal 'a'], [.nonterminal 3]]), (1, [[.nonterminal 2, .nonterminal 1]]), (2, [[]])],
      .empty⟩ 4 = some true := by decide

end Grammar

end TopDown
