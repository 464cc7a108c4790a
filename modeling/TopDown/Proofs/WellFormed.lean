import TopDown.Grammar.Fresh
import TopDown.Grammar.WellFormed

/-!
# Well-formed grammars and fresh nonterminals

What `Grammar.validate` accepts, as a property, and what the edits of a grammar do to its productions and declarations. A fresh
nonterminal lies above everything in use, so it is neither the start nor declared nor mentioned.
-/

namespace TopDown

/-- The result of taking the maximum along a list is at least the value at the beginning. -/
theorem le_foldl_max_start (l : List Nat) (a : Nat) : a ≤ l.foldl max a := by
  induction l generalizing a with
  | nil => exact Nat.le_refl a
  | cons b l ih => exact Nat.le_trans (Nat.le_max_left a b) (ih (max a b))

/-- The result of taking the maximum along a list is at least every member. -/
theorem le_foldl_max_of_mem {l : List Nat} {b : Nat} (h : b ∈ l) (a : Nat) : b ≤ l.foldl max a := by
  induction l generalizing a with
  | nil => exact nomatch h
  | cons c l ih =>
    rcases List.mem_cons.1 h with rfl | h
    · exact Nat.le_trans (Nat.le_max_right a b) (le_foldl_max_start l (max a b))
    · exact ih h (max a c)

namespace Grammar

/-- The start and every nonterminal that a production mentions are declared. -/
structure WellFormed (g : Grammar) : Prop where
  start : g.start ∈ g.declared
  mention : ∀ nt, ∀ p ∈ g.productionsOf nt, ∀ m, .nonterminal m ∈ p → m ∈ g.declared

/-- A mention is a nonterminal in a production. -/
theorem mem_mentions {g : Grammar} {nt m : Nonterminal} :
    (nt, m) ∈ g.mentions ↔ ∃ p ∈ g.productionsOf nt, .nonterminal m ∈ p := by
  rw [mentions, List.mem_flatMap]
  constructor
  · rintro ⟨⟨k, p⟩, hp, hm⟩
    obtain ⟨m', hm', heq⟩ := List.mem_map.1 hm
    cases heq
    exact ⟨p, Rules.mem_productions.1 hp, Production.mem_nonterminals.1 hm'⟩
  · rintro ⟨p, hp, hm⟩
    exact ⟨(nt, p), Rules.mem_productions.2 hp, List.mem_map.2 ⟨m, Production.mem_nonterminals.2 hm, rfl⟩⟩

/-- The grammars that are not refused are the well-formed ones. -/
theorem validate_eq_ok_iff {g : Grammar} : g.validate = .ok () ↔ g.WellFormed := by
  unfold validate
  constructor
  · intro h
    split at h
    · cases h
    · split at h
      · cases h
      · rename_i hs
        split at h
        · cases h
        · rename_i hm
          refine ⟨by simpa [declared] using hs, fun nt p hp m hmem => ?_⟩
          have := List.find?_eq_none.1 hm (nt, m) (mem_mentions.2 ⟨p, hp, hmem⟩)
          simpa [declared] using this
  · intro h
    have hs : g.rules.contains g.start = true := Rules.contains_eq_true_iff.2 h.start
    have hd : g.declared.isEmpty = false := List.isEmpty_eq_false_iff.2 (List.ne_nil_of_mem h.start)
    have hm : g.undeclaredMention? = none := by
      refine List.find?_eq_none.2 fun mention hmem => ?_
      obtain ⟨p, hp, hmp⟩ := mem_mentions.1 hmem
      have hd := Rules.contains_eq_true_iff.2 (h.mention mention.1 p hp mention.2 hmp)
      simp [hd]
    rw [if_neg (by simp [hd]), if_neg (by simp [hs]), hm]

/-- A grammar that is not well-formed is refused. -/
theorem validate_eq_error_of_not_wellFormed {g : Grammar} (h : ¬g.WellFormed) : ∃ cause, g.validate = .error cause := by
  cases hv : g.validate with
  | ok _ => exact absurd (validate_eq_ok_iff.1 hv) h
  | error cause => exact ⟨cause, rfl⟩

/-- A grammar that declares something is refused only for what it does not declare. -/
theorem kind_of_validate_eq_error {g : Grammar} (hd : g.declared ≠ []) {cause : Malformed} (h : g.validate = .error cause) :
    cause.kind = .undeclaredNonterminal := by
  unfold validate at h
  rw [if_neg (by simpa using hd)] at h
  split at h
  · cases h
    rfl
  · split at h
    · cases h
      rfl
    · cases h

/-! ## What is in use -/

theorem start_le_maxNonterminal (g : Grammar) : g.start ≤ g.maxNonterminal := le_foldl_max_start _ _

theorem le_maxNonterminal_of_declared {g : Grammar} {nt : Nonterminal} (h : nt ∈ g.declared) : nt ≤ g.maxNonterminal :=
  le_foldl_max_of_mem (List.mem_append_left _ (List.mem_append_left _ h)) _

/-- The largest nonterminal in use is at least every one that has a name. -/
theorem le_maxNonterminal_of_named {g : Grammar} {nt : Nonterminal} {name : String} (h : g.names.get? nt = some name) :
    nt ≤ g.maxNonterminal := by
  have hnt : nt ∈ g.names.named := List.mem_map.2 ⟨(nt, name), Table.mem_of_get?_eq_some h, rfl⟩
  exact le_foldl_max_of_mem (List.mem_append_left _ (List.mem_append_right _ hnt)) _

/-- The largest nonterminal in use is at least every mentioned one. -/
theorem le_maxNonterminal_of_mention {g : Grammar} {nt m : Nonterminal} {p : Production} (hp : p ∈ g.productionsOf nt)
    (h : .nonterminal m ∈ p) : m ≤ g.maxNonterminal := by
  have hm : m ∈ g.mentions.map Prod.snd := List.mem_map.2 ⟨(nt, m), mem_mentions.2 ⟨p, hp, h⟩, rfl⟩
  exact le_foldl_max_of_mem (List.mem_append_right _ hm) _

theorem declared_of_mem_productionsOf {g : Grammar} {nt : Nonterminal} {p : Production} (h : p ∈ g.productionsOf nt) :
    nt ∈ g.declared :=
  Rules.mem_declared_of_mem_productionsOf h

/-- A nonterminal that is not without productions is declared. -/
theorem declared_of_productionsOf_ne_nil {g : Grammar} {nt : Nonterminal} (h : g.productionsOf nt ≠ []) : nt ∈ g.declared := by
  obtain ⟨p, hp⟩ := List.exists_mem_of_ne_nil _ h
  exact declared_of_mem_productionsOf hp

theorem productionsOf_of_not_declared {g : Grammar} {nt : Nonterminal} (h : nt ∉ g.declared) : g.productionsOf nt = [] :=
  List.eq_nil_iff_forall_not_mem.2 fun _ hp => h (declared_of_mem_productionsOf hp)

theorem freshNonterminal_not_declared (g : Grammar) : g.freshNonterminal ∉ g.declared := fun h =>
  Nat.not_succ_le_self _ (le_maxNonterminal_of_declared h)

theorem ne_freshNonterminal_of_declared {g : Grammar} {nt : Nonterminal} (h : nt ∈ g.declared) : nt ≠ g.freshNonterminal :=
  fun he => g.freshNonterminal_not_declared (he ▸ h)

theorem ne_freshNonterminal_of_named {g : Grammar} {nt : Nonterminal} {name : String} (h : g.names.get? nt = some name) :
    nt ≠ g.freshNonterminal :=
  Nat.ne_of_lt (Nat.lt_succ_of_le (le_maxNonterminal_of_named h))

/-- No production mentions the next fresh nonterminal. -/
theorem ne_freshNonterminal_of_mention {g : Grammar} {nt m : Nonterminal} {p : Production} (hp : p ∈ g.productionsOf nt)
    (h : .nonterminal m ∈ p) : m ≠ g.freshNonterminal :=
  Nat.ne_of_lt (Nat.lt_succ_of_le (le_maxNonterminal_of_mention hp h))

/-! ## What the edits do -/

@[simp] theorem start_setProductions (g : Grammar) (nt : Nonterminal) (ps : List Production) :
    (g.setProductions nt ps).start = g.start := rfl

/-- Setting the productions of a nonterminal declares it, and nothing else. -/
theorem mem_declared_setProductions {g : Grammar} {nt m : Nonterminal} {ps : List Production} :
    m ∈ (g.setProductions nt ps).declared ↔ m = nt ∨ m ∈ g.declared := by
  have h : (g.setProductions nt ps).declared = if nt ∈ g.declared then g.declared else g.declared ++ [nt] :=
    Rules.declared_set g.rules nt (.ofList ps)
  rw [h]
  split
  · rename_i hd
    exact ⟨Or.inr, fun hm => hm.elim (fun he => he ▸ hd) id⟩
  · rw [List.mem_append, List.mem_singleton, or_comm]

@[simp] theorem start_addFresh (g : Grammar) (origin : Nonterminal) (ps : List Production) :
    (g.addFresh origin ps).start = g.start := rfl

theorem productionsOf_addFresh (g : Grammar) (origin m : Nonterminal) (ps : List Production) :
    (g.addFresh origin ps).productionsOf m = if m = g.freshNonterminal then distinct ps else g.productionsOf m :=
  productionsOf_setProductions _ _ _ _

/-- A nonterminal that is not without productions keeps them when a fresh one is added. -/
theorem productionsOf_addFresh_of_ne_nil {g : Grammar} {nt : Nonterminal} (h : g.productionsOf nt ≠ []) (origin : Nonterminal)
    (ps : List Production) : (g.addFresh origin ps).productionsOf nt = g.productionsOf nt := by
  rw [productionsOf_addFresh, if_neg (ne_freshNonterminal_of_declared (declared_of_productionsOf_ne_nil h))]

theorem mem_declared_addFresh {g : Grammar} {origin m : Nonterminal} {ps : List Production} :
    m ∈ (g.addFresh origin ps).declared ↔ m = g.freshNonterminal ∨ m ∈ g.declared :=
  mem_declared_setProductions

/-- A nonterminal in use comes before the fresh one, which then is in use. -/
theorem freshNonterminal_le_maxNonterminal_addFresh (g : Grammar) (origin : Nonterminal) (ps : List Production) :
    g.freshNonterminal ≤ (g.addFresh origin ps).maxNonterminal :=
  le_maxNonterminal_of_declared (mem_declared_addFresh.2 (Or.inl rfl))

/-- Exchanging productions everywhere exchanges those of each declared nonterminal. -/
theorem mem_productionsOf_map {g h : Grammar} {f : Nonterminal → Alternatives → Alternatives} (hh : h.rules = g.rules.map f)
    {nt : Nonterminal} {p : Production} :
    p ∈ h.productionsOf nt ↔ ∃ a, g.rules.get? nt = some a ∧ p ∈ (f nt a).toList := by
  rw [productionsOf, Rules.productionsOf, hh, Rules.get?_map]
  cases g.rules.get? nt with
  | none => simp
  | some a => simp

theorem toList_of_get? {g : Grammar} {nt : Nonterminal} {a : Alternatives} (h : g.rules.get? nt = some a) :
    a.toList = g.productionsOf nt := by
  rw [productionsOf, Rules.productionsOf, h, Option.getD_some]

theorem toList_of_mem_entries {g : Grammar} {entry : Nonterminal × Alternatives} (h : entry ∈ g.rules.entries) :
    entry.2.toList = g.productionsOf entry.1 :=
  toList_of_get? ((Table.get?_eq_some_iff g.rules.nodup).2 h)

/-- A declared nonterminal has alternatives. -/
theorem exists_get?_of_declared {g : Grammar} {nt : Nonterminal} (h : nt ∈ g.declared) :
    ∃ a, g.rules.get? nt = some a ∧ a.toList = g.productionsOf nt := by
  obtain ⟨a, ha⟩ := Option.ne_none_iff_exists'.1 fun hn => Rules.get?_eq_none_iff.1 hn h
  exact ⟨a, ha, toList_of_get? ha⟩

end Grammar

end TopDown
