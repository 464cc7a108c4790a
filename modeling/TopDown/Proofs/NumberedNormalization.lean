import TopDown.Proofs.AnyOrder
import TopDown.Proofs.NumberedStages
import TopDown.Proofs.Refusal

/-!
# Normalization, as far as numbers last

What a normalization with numbers of 32 bits promises. Whatever it gives is what a normalization without end of numbers gives, so
it has the same language and is fit for top-down search. It is refused for the same reasons, and has a result exactly when,
besides, the numbers suffice. They do when there are left as many as there are productions, and more than there are nonterminals;
a grammar that uses the largest number of 32 bits is left without a result by the first fresh nonterminal.

Main statements: `language_normalizeNumbered`, `normalizeNumbered_safe`, `normalizeNumbered_shape`,
`normalizeNumbered_refused_iff`, `normalizeNumbered_stable` and `normalizeNumbered_anyOrder`.
-/

namespace TopDown.Grammar

variable {g h : Grammar}

/-! ## What is given -/

theorem normalizeNumbered_of_lt {n : Normalized} (hn : g.normalize = .ok n)
    (hrules : g.maxNonterminal + g.rules.size + 1 < UInt32.size)
    (hproductions : g.maxNonterminal + g.productionCount < UInt32.size) : g.normalizeNumbered = .ok n :=
  normalizeNumbered_eq_ok_iff.2 ⟨hn, numbersSuffice_of_lt hrules hproductions⟩

/-- A normalized grammar has the language of the grammar that it was made from, the empty word included. -/
theorem language_normalizeNumbered {n : Normalized} (hn : g.normalizeNumbered = .ok n) (word : List Char) :
    n.grammar.Language word ↔ g.Language word :=
  language_normalize (normalizeNumbered_eq_ok_iff.1 hn).1 word

theorem runs_normalizeNumbered : ∃ n, runs.normalizeNumbered = .ok n ∧ n.route = .leftRecursionRemoval :=
  ⟨_, normalizeNumbered_of_lt rfl (by decide) (by decide), rfl⟩

/-- The grammar of runs keeps its language on the way of left-recursion removal. -/
theorem language_normalizeNumbered_runs :
    ∃ n, runs.normalizeNumbered = .ok n ∧ n.route = .leftRecursionRemoval ∧
      ∀ word, n.grammar.Language word ↔ runs.Language word := by
  obtain ⟨n, hn, hroute⟩ := runs_normalizeNumbered
  exact ⟨n, hn, hroute, language_normalizeNumbered hn⟩

/-- A normalized grammar is well-formed and not left-recursive, and everything that it declares is productive and reachable. -/
theorem normalizeNumbered_safe {n : Normalized} (hn : g.normalizeNumbered = .ok n) :
    n.grammar.validate = .ok () ∧ n.grammar.leftRecursive = false ∧
      ∀ nt ∈ n.grammar.declared, nt ∈ n.grammar.productive ∧ nt ∈ n.grammar.reachable :=
  normalize_safe (normalizeNumbered_eq_ok_iff.1 hn).1

/-- The grammar of runs is safe once it is normalized, and was not before. -/
theorem normalizeNumbered_safe_runs :
    runs.leftRecursive = true ∧ ∃ n, runs.normalizeNumbered = .ok n ∧ n.grammar.leftRecursive = false := by
  obtain ⟨n, hn, -⟩ := runs_normalizeNumbered
  exact ⟨by decide, n, hn, (normalizeNumbered_safe hn).2.1⟩

/-- A grammar that was normalized by factoring is factored. One that was normalized by removing left recursion has no empty
production except that of its start, which is there if the empty word is in the language, and the start is then mentioned
nowhere. -/
theorem normalizeNumbered_shape {n : Normalized} (hn : g.normalizeNumbered = .ok n) :
    (n.route = .leftFactoring → n.grammar.isFactored = true) ∧
    (n.route = .leftRecursionRemoval →
      (∀ nt, [] ∈ n.grammar.productionsOf nt → nt = n.grammar.start) ∧
      ([] ∈ n.grammar.productionsOf n.grammar.start ↔ g.Language []) ∧
      (g.Language [] → ∀ nt, ∀ p ∈ n.grammar.productionsOf nt, .nonterminal n.grammar.start ∉ p)) :=
  normalize_shape (normalizeNumbered_eq_ok_iff.1 hn).1

/-- The grammar of runs gets a start with an empty production that nothing mentions; the grammar of two words that begin alike
is factored. -/
theorem normalizeNumbered_shape_runs :
    (∃ n, runs.normalizeNumbered = .ok n ∧ n.route = .leftRecursionRemoval ∧
      [] ∈ n.grammar.productionsOf n.grammar.start ∧
      ∀ nt, ∀ p ∈ n.grammar.productionsOf nt, .nonterminal n.grammar.start ∉ p) ∧
    sharing.isFactored = false ∧
      ∃ n, sharing.normalizeNumbered = .ok n ∧ n.route = .leftFactoring ∧ n.grammar.isFactored = true := by
  have hruns : runs.Language [] := startNullable_iff.1 (by decide)
  obtain ⟨n, hn, hroute⟩ := runs_normalizeNumbered
  obtain ⟨-, hiff, hunmentioned⟩ := (normalizeNumbered_shape hn).2 hroute
  have hsharing := normalizeNumbered_of_lt (g := sharing) rfl (by decide) (by decide)
  exact ⟨⟨n, hn, hroute, hiff.2 hruns, hunmentioned hruns⟩, by decide, _, hsharing, rfl, (normalizeNumbered_shape hsharing).1 rfl⟩

/-! ## What is refused -/

/-- Numbers that suffice for one of two alike grammars suffice for the other. -/
theorem Alike.numbersSuffice (ha : Alike g h) (hleft : g.leftRecursive = true) (hg : g.WellFormed) (hsuffice : NumbersSuffice g) :
    NumbersSuffice h := by
  intro followed' hfollow'
  have hh := ha.wellFormed hg
  have hroute : g.route = .leftRecursionRemoval := if_pos hleft
  have hroute' : h.route = .leftRecursionRemoval := if_pos (ha.leftRecursive_eq ▸ hleft)
  rw [hroute'] at hfollow'
  have hw : ∃ word, h.Language word := by
    refine Classical.byContradiction fun hnone => ?_
    have herror := descending_eq_error hh fun word hword => hnone ⟨word, hword⟩
    rw [follow, herror] at hfollow'
    cases hfollow'
  obtain ⟨followed, hfollow, -⟩ := follow_fit hg (hw.imp fun word => (ha.language_iff word).2)
  have hlast := hsuffice followed hfollow
  rw [hroute] at hfollow
  exact (numbersLast_congr ha.names (ha.descending hfollow hfollow').names).1 hlast

/-- Whether a grammar is left-recursive does not depend on the order in which its rules and productions are stored, and neither
does what comes out when its left recursion is removed. The numbers run out for a grammar that differs in order only as well, or
it is refused for a cause of the same kind, or normalized to a grammar that differs in order only and has the same names, the
fresh ones included. -/
theorem normalizeNumbered_anyOrder (hagrees : g.agrees h = true) (hnames : g.names = h.names) :
    g.leftRecursive = h.leftRecursive ∧ (g.leftRecursive = true →
      (g.normalizeNumbered = .error .outOfNumbers ∧ h.normalizeNumbered = .error .outOfNumbers) ∨
      (∃ cause cause', g.normalizeNumbered = .error (.malformed cause) ∧
        h.normalizeNumbered = .error (.malformed cause') ∧ cause.kind = cause'.kind) ∨
      (∃ n n', g.normalizeNumbered = .ok n ∧ h.normalizeNumbered = .ok n' ∧ n.grammar.agrees n'.grammar = true ∧
        n.grammar.names = n'.grammar.names)) := by
  obtain ⟨hleft, hnormalize⟩ := normalize_anyOrder hagrees hnames
  obtain ⟨hstart, hdeclared, hproductions⟩ := agrees_iff.1 hagrees
  have ha : Alike g h := ⟨hstart, hnames, hdeclared, hproductions⟩
  refine ⟨hleft, fun hg => ?_⟩
  have hvalid : g.validate = .ok () ↔ h.validate = .ok () := by
    rw [validate_eq_ok_iff, validate_eq_ok_iff]
    exact ⟨ha.wellFormed, ha.symm.wellFormed⟩
  have hsuffice : g.validate = .ok () → (NumbersSuffice g ↔ NumbersSuffice h) := fun hv =>
    ⟨ha.numbersSuffice hg (validate_eq_ok_iff.1 hv),
      ha.symm.numbersSuffice (hleft ▸ hg) (validate_eq_ok_iff.1 (hvalid.1 hv))⟩
  by_cases hstop : g.validate = .ok () ∧ ¬NumbersSuffice g
  · refine .inl ⟨normalizeNumbered_eq_outOfNumbers_iff.2 hstop, normalizeNumbered_eq_outOfNumbers_iff.2 ?_⟩
    exact ⟨hvalid.1 hstop.1, fun hh => hstop.2 ((hsuffice hstop.1).2 hh)⟩
  · have hgs : g.validate = .ok () → NumbersSuffice g := fun hv => Classical.byContradiction fun hnot => hstop ⟨hv, hnot⟩
    have hhs : h.validate = .ok () → NumbersSuffice h := fun hv => (hsuffice (hvalid.2 hv)).1 (hgs (hvalid.2 hv))
    rw [normalizeNumbered_of_suffice hgs, normalizeNumbered_of_suffice hhs]
    simp only [Stop.lift_eq_ok_iff, Stop.lift_eq_error_iff]
    exact .inr (hnormalize hg)

/-- A left-recursive grammar of two nonterminals, and the same in another order. -/
def sums : Grammar :=
  ⟨0, .ofList [(0, [[.nonterminal 0, .terminal '+', .nonterminal 1], [.nonterminal 1]]),
    (1, [[.nonterminal 1, .terminal '1'], [.terminal '1']])], .ofList [(0, "S"), (1, "N")]⟩

/-- The grammar of sums, its nonterminals and productions the other way round. -/
def sumsReversed : Grammar :=
  { sums with rules := .ofList [(1, [[.terminal '1'], [.nonterminal 1, .terminal '1']]),
    (0, [[.nonterminal 1], [.nonterminal 0, .terminal '+', .nonterminal 1]])] }

/-- The grammar of sums is normalized to the same in either order. -/
theorem normalizeNumbered_anyOrder_sums : sums ≠ sumsReversed ∧ sums.leftRecursive = true ∧ ∃ n n',
    sums.normalizeNumbered = .ok n ∧ sumsReversed.normalizeNumbered = .ok n' ∧ n.grammar.agrees n'.grammar = true ∧
      n.grammar.names = n'.grammar.names := by
  have hleft : sums.leftRecursive = true := by decide
  have hok := normalizeNumbered_of_lt (g := sums) rfl (by decide) (by decide)
  obtain ⟨-, hnormalize⟩ := normalizeNumbered_anyOrder (g := sums) (h := sumsReversed) (by decide) rfl
  rcases hnormalize hleft with ⟨hstop, -⟩ | ⟨cause, -, herror, -⟩ | hboth
  · rw [hok] at hstop
    cases hstop
  · rw [hok] at herror
    cases herror
  · exact ⟨by decide, hleft, hboth⟩

/-- Direct recursion in another order, with the same name for the largest number of 32 bits. -/
def exhaustedReversed : Grammar :=
  { exhaustedRecursion with rules := .ofList [(0, [[.terminal 'b'], [.nonterminal 0, .terminal 'a']])] }

/-- In either order there is no number left for the tail, so that neither grammar is refused and neither is normalized. -/
theorem normalizeNumbered_exhaustedReversed : exhaustedRecursion.agrees exhaustedReversed = true ∧
    exhaustedRecursion.names = exhaustedReversed.names ∧ exhaustedRecursion.leftRecursive = true ∧
    exhaustedRecursion.normalizeNumbered = .error .outOfNumbers ∧
    exhaustedReversed.normalizeNumbered = .error .outOfNumbers ∧
    ¬((∃ cause cause', exhaustedRecursion.normalizeNumbered = .error (.malformed cause) ∧
        exhaustedReversed.normalizeNumbered = .error (.malformed cause') ∧ cause.kind = cause'.kind) ∨
      ∃ n n', exhaustedRecursion.normalizeNumbered = .ok n ∧ exhaustedReversed.normalizeNumbered = .ok n') := by
  have hstop : exhaustedRecursion.normalizeNumbered = .error .outOfNumbers := by decide +kernel
  have hstop' : exhaustedReversed.normalizeNumbered = .error .outOfNumbers := by decide +kernel
  refine ⟨by decide, rfl, by decide, hstop, hstop', ?_⟩
  simp [hstop]

end TopDown.Grammar
