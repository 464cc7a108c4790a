import TopDown.Numbered
import TopDown.Proofs.Freshness
import TopDown.Proofs.NormalForm

/-!
# As far as numbers last

A transformation with numbers of 32 bits takes the same steps as the one that never runs out of numbers. A step that needs a fresh
nonterminal breaks off when the number of that nonterminal would not fit, and as every fresh nonterminal gets a name and keeps it,
the names at the end tell whether this has happened. So there is a result exactly when the numbers last, and it is that of the
transformation that never runs out.

Main statements: `factoringNumbered_eq`, `withoutLeftRecursionNumbered_eq` and `normalizeNumbered_eq_ok_iff`.
-/

namespace TopDown

namespace Stop

variable {α β : Type}

theorem lift_eq_ok_iff {outcome : Except Malformed α} {a : α} : lift outcome = .ok a ↔ outcome = .ok a := by
  cases outcome <;> simp [lift, Except.mapError]

theorem lift_eq_error_iff {outcome : Except Malformed α} {cause : Malformed} :
    lift outcome = .error (.malformed cause) ↔ outcome = .error cause := by
  cases outcome <;> simp [lift, Except.mapError]

theorem lift_bind (outcome : Except Malformed α) (f : α → Except Malformed β) :
    lift (outcome >>= f) = lift outcome >>= fun a => lift (f a) := by
  cases outcome <;> rfl

end Stop

namespace Grammar

/-- The numbers last from one grammar to another: those that only the second names fit in 32 bits. -/
def NumbersLast (g h : Grammar) : Prop := ∀ nt ∈ h.names.named, nt ∈ g.names.named ∨ nt < UInt32.size

instance (g h : Grammar) : Decidable (NumbersLast g h) :=
  inferInstanceAs (Decidable (∀ nt ∈ h.names.named, nt ∈ g.names.named ∨ nt < UInt32.size))

/-- What is made on the way from one grammar to another, if the numbers last that far. -/
def asFar {α : Type} (g h : Grammar) (made : α) : Except Stop α :=
  if NumbersLast g h then .ok made else .error .outOfNumbers

/-- What had a name in one grammar still has one in another. -/
def KeepsNamed (g h : Grammar) : Prop := ∀ nt ∈ g.names.named, nt ∈ h.names.named

variable {α β : Type} {g h k : Grammar} {made : α}

theorem KeepsNamed.refl (g : Grammar) : KeepsNamed g g := fun _ hnt => hnt

theorem KeepsNamed.trans (hgh : KeepsNamed g h) (hhk : KeepsNamed h k) : KeepsNamed g k := fun nt hnt => hhk nt (hgh nt hnt)

theorem NumbersLast.refl (g : Grammar) : NumbersLast g g := fun _ hnt => .inl hnt

/-- The numbers last over two legs of a way if they last over each of them. -/
theorem numbersLast_iff (hgh : KeepsNamed g h) (hhk : KeepsNamed h k) :
    NumbersLast g k ↔ NumbersLast g h ∧ NumbersLast h k := by
  constructor
  · intro hgk
    exact ⟨fun nt hnt => hgk nt (hhk nt hnt), fun nt hnt => (hgk nt hnt).imp_left (hgh nt)⟩
  · intro hboth nt hnt
    rcases hboth.2 nt hnt with hmid | hfits
    · exact hboth.1 nt hmid
    · exact .inr hfits

theorem asFar_self (g : Grammar) (made : α) : asFar g g made = .ok made := if_pos (NumbersLast.refl g)

theorem asFar_eq_ok_iff {result : α} : asFar g h made = .ok result ↔ NumbersLast g h ∧ made = result := by
  unfold asFar
  split <;> simp [*]

theorem asFar_eq_error_iff {stop : Stop} : asFar g h made = .error stop ↔ ¬NumbersLast g h ∧ stop = .outOfNumbers := by
  unfold asFar
  split <;> simp [*, eq_comm]

/-- A leg of the way that is followed by another. -/
theorem asFar_bind {f : α → Except Stop β} {result : β} (hf : f made = asFar h k result)
    (hgh : KeepsNamed g h) (hhk : KeepsNamed h k) :
    (asFar g h made >>= f) = asFar g k result := by
  have hlegs := numbersLast_iff hgh hhk
  by_cases hfirst : NumbersLast g h
  · rw [asFar, if_pos hfirst]
    refine hf.trans ?_
    simp only [asFar, hlegs, hfirst, true_and]
  · rw [asFar, asFar, if_neg hfirst, if_neg fun hgk => hfirst (hlegs.1 hgk).1]
    rfl

/-- What is made of the result needs no numbers. -/
theorem asFar_map (f : α → β) : (asFar g h made >>= fun a => pure (f a)) = asFar g h (f made) := by
  unfold asFar
  split <;> rfl

theorem map_asFar (f : α → β) : f <$> asFar g h made = asFar g h (f made) := by
  unfold asFar
  split <;> rfl

/-- Only the names count. -/
theorem numbersLast_congr {g' h' : Grammar} (hg : g.names = g'.names) (hh : h.names = h'.names) :
    NumbersLast g h ↔ NumbersLast g' h' := by
  unfold NumbersLast
  rw [hg, hh]

theorem asFar_congr {g' h' : Grammar} (hg : g.names = g'.names) (hh : h.names = h'.names) (made : α) :
    asFar g h made = asFar g' h' made := by
  simp only [asFar, numbersLast_congr hg hh]

variable {outcome : Except Malformed Grammar}

/-- There is a result where there is one without end of numbers, and they last for it. -/
theorem lift_bind_asFar_eq_ok_iff :
    (Stop.lift outcome >>= fun k => asFar g k k) = .ok h ↔ outcome = .ok h ∧ NumbersLast g h := by
  cases outcome with
  | error cause => simp [Stop.lift, Except.mapError, bind, Except.bind]
  | ok k =>
    change asFar g k k = .ok h ↔ _
    rw [asFar_eq_ok_iff, Except.ok.injEq, and_comm]
    exact and_congr_right fun hk => by rw [hk]

/-- A grammar is refused for the same cause, however many numbers there are. -/
theorem lift_bind_asFar_eq_malformed_iff {cause : Malformed} :
    (Stop.lift outcome >>= fun k => asFar g k k) = .error (.malformed cause) ↔ outcome = .error cause := by
  cases outcome with
  | error other => simp [Stop.lift, Except.mapError, bind, Except.bind]
  | ok k =>
    change asFar g k k = .error _ ↔ _
    simp [asFar_eq_error_iff]

/-- The source gives the number after the largest in use, if that fits. -/
theorem nextNumber_eq (g : Grammar) :
    g.nextNumber = if g.freshNonterminal < UInt32.size then .ok g.freshNonterminal else .error .outOfNumbers := by
  have htake : (NumberSource.after g.maxNonterminal).take.1 = g.freshNonterminal % UInt32.size := by
    have hnext : UInt32.ofNat g.maxNonterminal + 1 = UInt32.ofNat g.freshNonterminal := (UInt32.ofNat_add _ 1).symm
    unfold NumberSource.take NumberSource.after
    rw [hnext, UInt32.toNat_ofNat']
  unfold nextNumber
  rw [htake]
  by_cases hfits : g.freshNonterminal < UInt32.size
  · rw [Nat.mod_eq_of_lt hfits, if_pos hfits]
    exact if_pos (Nat.lt_succ_self _)
  · have hlt : g.freshNonterminal % UInt32.size < UInt32.size := Nat.mod_lt _ (by decide)
    have hle : g.freshNonterminal % UInt32.size ≤ g.maxNonterminal :=
      Nat.le_of_lt_succ (Nat.lt_of_lt_of_le hlt (Nat.le_of_not_lt hfits))
    rw [if_neg hfits]
    exact if_neg (Nat.not_lt_of_le hle)

theorem named_addFresh (g : Grammar) (origin : Nonterminal) (ps : List Production) :
    (g.addFresh origin ps).names.named = g.names.named ++ [g.freshNonterminal] := by
  rw [Names.named, entries_names_addFresh, List.map_append]
  rfl

/-- The numbers last for one nonterminal more if its number fits. -/
theorem numbersLast_addFresh (g : Grammar) (origin : Nonterminal) (ps : List Production) :
    NumbersLast g (g.addFresh origin ps) ↔ g.freshNonterminal < UInt32.size := by
  have hnew : g.freshNonterminal ∉ g.names.named := fun hnamed => Nat.lt_irrefl _ (lt_freshNonterminal_of_mem_named hnamed)
  unfold NumbersLast
  rw [named_addFresh]
  constructor
  · intro hlast
    exact (hlast _ (List.mem_append_right _ List.mem_cons_self)).resolve_left hnew
  · intro hfits nt hnt
    rcases List.mem_append.1 hnt with hnt | hnt
    · exact .inl hnt
    · rw [List.mem_singleton.1 hnt]
      exact .inr hfits

theorem addNumbered_eq (g : Grammar) (origin : Nonterminal) :
    g.addNumbered origin = asFar g (g.addFresh origin []) (g.addFresh origin [], g.freshNonterminal) := by
  unfold addNumbered asFar
  rw [nextNumber_eq]
  simp only [numbersLast_addFresh]
  split <;> rfl

/-- A fresh nonterminal can be given its productions afterwards. -/
theorem setProductions_addFresh (g : Grammar) (origin : Nonterminal) (ps : List Production) :
    (g.addFresh origin []).setProductions g.freshNonterminal ps = g.addFresh origin ps := by
  unfold addFresh setProductions
  rw [Rules.set_set]

theorem keepsNamed_addFresh (g : Grammar) (origin : Nonterminal) (ps : List Production) :
    KeepsNamed g (g.addFresh origin ps) := by
  intro nt hnt
  rw [named_addFresh]
  exact List.mem_append_left _ hnt

end Grammar

open Grammar

/-! ## Factoring -/

namespace Factoring

theorem keepsNamed_place (nt : Nonterminal) (parts : List Part) (s : Factoring) :
    KeepsNamed s.grammar (place nt parts s).1.grammar := by
  induction parts generalizing s with
  | nil => exact KeepsNamed.refl _
  | cons part parts ih =>
    cases part with
    | alone p => exact ih s
    | shared stem remainders => exact (s.grammar.keepsNamed_addFresh nt remainders).trans (ih (s.introduce nt remainders))

theorem keepsNamed_take (s : Factoring) (nt : Nonterminal) : KeepsNamed s.grammar (s.take nt).grammar := keepsNamed_place nt _ s

theorem keepsNamed_run (fuel : Nat) (s : Factoring) : KeepsNamed s.grammar (run fuel s).grammar := by
  induction fuel generalizing s with
  | zero => exact KeepsNamed.refl _
  | succ fuel ih =>
    unfold run
    split
    · exact KeepsNamed.refl _
    · rename_i nt rest _
      exact (keepsNamed_take { s with pending := rest } nt).trans (ih _)

/-- Placing goes on as far as the numbers last. -/
theorem placeNumbered_eq (nt : Nonterminal) (parts : List Part) (s : Factoring) :
    placeNumbered nt parts s = asFar s.grammar (place nt parts s).1.grammar (place nt parts s) := by
  induction parts generalizing s with
  | nil => exact (asFar_self _ _).symm
  | cons part parts ih =>
    cases part with
    | alone p =>
      unfold placeNumbered
      rw [ih]
      exact asFar_map fun placed : Factoring × List Production => (placed.1, p :: placed.2)
    | shared stem remainders =>
      unfold placeNumbered
      rw [addNumbered_eq]
      refine asFar_bind ?_ (s.grammar.keepsNamed_addFresh nt []) ?_
      · simp only [setProductions_addFresh]
        rw [ih]
        exact asFar_map fun placed : Factoring × List Production =>
          (placed.1, (stem ++ [.nonterminal s.grammar.freshNonterminal]) :: placed.2)
      · exact keepsNamed_place nt parts (s.introduce nt remainders)

theorem takeNumbered_eq (s : Factoring) (nt : Nonterminal) :
    s.takeNumbered nt = asFar s.grammar (s.take nt).grammar (s.take nt) := by
  unfold takeNumbered
  rw [placeNumbered_eq]
  exact asFar_map fun placed : Factoring × List Production =>
    { placed.1 with grammar := placed.1.grammar.setProductions nt placed.2 }

/-- A factoring goes on as far as the numbers last. -/
theorem runNumbered_eq (fuel : Nat) (s : Factoring) :
    runNumbered fuel s = asFar s.grammar (run fuel s).grammar (run fuel s) := by
  induction fuel generalizing s with
  | zero => exact (asFar_self _ _).symm
  | succ fuel ih =>
    unfold runNumbered run
    cases s.pending with
    | nil => exact (asFar_self _ _).symm
    | cons nt rest =>
      simp only [takeNumbered_eq]
      exact asFar_bind (ih _) (keepsNamed_take { s with pending := rest } nt) (keepsNamed_run fuel _)

end Factoring

namespace Grammar

theorem factoringNumbered_eq (g : Grammar) : g.factoringNumbered = asFar g g.factored g.factoring := Factoring.runNumbered_eq _ _

theorem factoredNumbered_eq (g : Grammar) : g.factoredNumbered = asFar g g.factored g.factored := by
  unfold factoredNumbered
  rw [factoringNumbered_eq, map_asFar]
  rfl

end Grammar

/-! ## Left recursion -/

namespace Elimination

theorem keepsNamed_removeDirect (e : Elimination) (nt : Nonterminal) : KeepsNamed e.grammar (e.removeDirect nt).grammar := by
  cases htails : (e.grammar.recursiveTailsOf nt).isEmpty with
  | true =>
    simp only [removeDirect, htails, if_true]
    exact KeepsNamed.refl _
  | false =>
    simp only [removeDirect, htails, Bool.false_eq_true, if_false]
    exact keepsNamed_addFresh e.grammar nt (withTail e.grammar.freshNonterminal (e.grammar.recursiveTailsOf nt))

theorem keepsNamed_run (e : Elimination) (earlier nts : List Nonterminal) :
    KeepsNamed e.grammar (e.run earlier nts).grammar := by
  induction nts generalizing e earlier with
  | nil => exact KeepsNamed.refl _
  | cons nt nts ih =>
    let started : Elimination := { e with grammar := e.grammar.substituted earlier nt }
    exact (started.keepsNamed_removeDirect nt).trans (ih (e.take earlier nt) (earlier ++ [nt]))

/-- Removing direct recursion goes on as far as the numbers last. -/
theorem removeDirectNumbered_eq (e : Elimination) (nt : Nonterminal) :
    e.removeDirectNumbered nt = asFar e.grammar (e.removeDirect nt).grammar (e.removeDirect nt) := by
  cases htails : (e.grammar.recursiveTailsOf nt).isEmpty with
  | true =>
    simp only [removeDirectNumbered, removeDirect, htails, if_true]
    exact (asFar_self _ _).symm
  | false =>
    simp only [removeDirectNumbered, removeDirect, htails, Bool.false_eq_true, if_false, addNumbered_eq]
    refine asFar_bind ?_ (e.grammar.keepsNamed_addFresh nt []) ?_
    · simp only [setProductions_addFresh]
      exact (asFar_self _ _).symm
    · exact KeepsNamed.refl _

/-- An elimination goes on as far as the numbers last. -/
theorem runNumbered_eq (e : Elimination) (earlier nts : List Nonterminal) :
    e.runNumbered earlier nts = asFar e.grammar (e.run earlier nts).grammar (e.run earlier nts) := by
  induction nts generalizing e earlier with
  | nil => exact (asFar_self _ _).symm
  | cons nt nts ih =>
    let started : Elimination := { e with grammar := e.grammar.substituted earlier nt }
    unfold runNumbered
    rw [removeDirectNumbered_eq]
    exact asFar_bind (ih _ _) (started.keepsNamed_removeDirect nt) (keepsNamed_run _ _ nts)

end Elimination

namespace Grammar

/-- Eliminating left recursion goes on as far as the numbers last. -/
theorem withoutLeftRecursionNumbered_eq (g : Grammar) :
    g.withoutLeftRecursionNumbered = Stop.lift g.withoutLeftRecursion >>= fun h => asFar g h h := by
  unfold withoutLeftRecursionNumbered eliminateLeftRecursionNumbered withoutLeftRecursion eliminateLeftRecursion
  cases g.orderByDistance with
  | error cause => rfl
  | ok order =>
    cases g.validate with
    | error cause => rfl
    | ok _ =>
      have hrun := Elimination.runNumbered_eq ⟨g, []⟩ [] order
      change Elimination.grammar <$> Elimination.runNumbered ⟨g, []⟩ [] order = _
      rw [hrun, map_asFar]
      rfl

/-! ## Normalization -/

theorem withEmptyWordNumbered_eq (g : Grammar) : g.withEmptyWordNumbered = asFar g g.withEmptyWord g.withEmptyWord := by
  unfold withEmptyWordNumbered
  rw [addNumbered_eq]
  refine asFar_bind ?_ (g.keepsNamed_addFresh g.start []) (KeepsNamed.refl _)
  simp only [setProductions_addFresh]
  exact (asFar_self _ _).symm

theorem keepsNamed_of_withoutLeftRecursion (hh : g.withoutLeftRecursion = .ok h) : KeepsNamed g h := by
  obtain ⟨-, rfl⟩ := withoutLeftRecursion_eq_ok_iff.1 hh
  exact Elimination.keepsNamed_run ⟨g, []⟩ [] g.distanceOrder

/-- The removal of left recursion goes on as far as the numbers last. -/
theorem descendingNumbered_eq (g : Grammar) :
    g.descendingNumbered = Stop.lift g.descending >>= fun h => asFar g h h := by
  unfold descendingNumbered descending
  cases hclean : g.reduced.trimmed with
  | error cause =>
    by_cases hempty : cause.kind = .startEliminated ∧ g.startNullable = true
    · simp only [if_pos hempty]
      exact (asFar_self _ _).symm
    · simp only [if_neg hempty]
      rfl
  | ok clean =>
    have hnames : clean.names = g.names := by
      rw [(trimmed_eq_ok_iff.1 hclean).1]
      rfl
    simp only [withoutLeftRecursionNumbered_eq]
    cases hresult : clean.withoutLeftRecursion with
    | error cause => rfl
    | ok result =>
      have hkeeps := keepsNamed_of_withoutLeftRecursion hresult
      cases hnullable : g.startNullable with
      | true =>
        have hfresh : KeepsNamed result result.withEmptyWord :=
          keepsNamed_addFresh result result.start [[.nonterminal result.start], []]
        refine (asFar_bind result.withEmptyWordNumbered_eq hkeeps hfresh).trans ?_
        exact asFar_congr hnames rfl _
      | false =>
        refine (asFar_bind (asFar_self result result).symm hkeeps (KeepsNamed.refl _)).trans ?_
        exact asFar_congr hnames rfl _

/-- Following a route goes on as far as the numbers last. -/
theorem followNumbered_eq (g : Grammar) (route : Route) :
    g.followNumbered route = Stop.lift (g.follow route) >>= fun h => asFar g h h := by
  cases route with
  | leftRecursionRemoval => exact g.descendingNumbered_eq
  | leftFactoring => exact g.factoredNumbered_eq

/-- The numbers suffice for a normalization if they last to the end of the route. -/
def NumbersSuffice (g : Grammar) : Prop := ∀ followed, g.follow g.route = .ok followed → NumbersLast g followed

/-- Where the numbers suffice, a normalization is the one that never runs out of numbers. -/
theorem normalizeNumbered_of_suffice (h : g.validate = .ok () → NumbersSuffice g) :
    g.normalizeNumbered = Stop.lift g.normalize := by
  unfold normalizeNumbered normalize
  simp only [followNumbered_eq, Stop.lift_bind]
  cases hvalid : g.validate with
  | error cause => rfl
  | ok _ =>
    cases hfollow : g.follow g.route with
    | error cause => rfl
    | ok followed =>
      have hfar : asFar g followed followed = .ok followed := if_pos (h hvalid followed hfollow)
      change (asFar g followed followed >>= _) = _
      rw [hfar]
      rfl

/-- Where they do not, it breaks off. -/
theorem normalizeNumbered_of_not_suffice (hvalid : g.validate = .ok ()) (h : ¬NumbersSuffice g) :
    g.normalizeNumbered = .error .outOfNumbers := by
  simp only [NumbersSuffice, not_forall] at h
  obtain ⟨followed, hfollow, hlast⟩ := h
  unfold normalizeNumbered
  rw [followNumbered_eq, hvalid, hfollow]
  change (asFar g followed followed >>= _) = _
  rw [asFar, if_neg hlast]
  rfl

/-- There is a result where there is one without end of numbers, and they suffice for it. -/
theorem normalizeNumbered_eq_ok_iff {n : Normalized} : g.normalizeNumbered = .ok n ↔ g.normalize = .ok n ∧ NumbersSuffice g := by
  by_cases hsuffice : g.validate = .ok () → NumbersSuffice g
  · rw [normalizeNumbered_of_suffice hsuffice, Stop.lift_eq_ok_iff]
    exact ⟨fun hn => ⟨hn, hsuffice (validate_eq_ok_iff.2 (exists_normalize_eq_ok_iff.1 ⟨n, hn⟩).1)⟩, And.left⟩
  · obtain ⟨hvalid, hnot⟩ := Classical.not_imp.1 hsuffice
    simp [normalizeNumbered_of_not_suffice hvalid hnot, hnot]

/-- The numbers run out where a grammar is well-formed and they do not suffice. -/
theorem normalizeNumbered_eq_outOfNumbers_iff :
    g.normalizeNumbered = .error .outOfNumbers ↔ g.validate = .ok () ∧ ¬NumbersSuffice g := by
  constructor
  · intro hstop
    refine Classical.not_imp.1 fun hsuffice => ?_
    rw [normalizeNumbered_of_suffice hsuffice] at hstop
    cases hn : g.normalize <;> simp [hn, Stop.lift, Except.mapError] at hstop
  · exact fun ⟨hvalid, hnot⟩ => normalizeNumbered_of_not_suffice hvalid hnot

end Grammar

end TopDown
