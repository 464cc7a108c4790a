import TopDown.Nullable
import TopDown.Proofs.WellFormed
import TopDown.Proofs.Words

/-!
# Nullable nonterminals and empty productions, judged

The nullable nonterminals are exactly those that generate the empty word. So every nonterminal of the grammar without empty
productions generates what it did, less the empty word: a nonterminal that contributes nothing to a word can be left out, and
what is left out can be put back.

Main statements: `mem_nullable_iff`, `mem_words_withoutEmpty_iff` and `withoutEmpty_exact`.
-/

namespace TopDown

open Production (reading)

namespace Production

/-- A list of symbols stands for the empty word when each of its symbols is a nonterminal that does. -/
theorem nil_mem_reading_iff {L : Nonterminal → Words} {p : Production} :
    [] ∈ reading L p ↔ ∀ s ∈ p, ∃ nt, s = .nonterminal nt ∧ [] ∈ L nt := by
  induction p with
  | nil => simp
  | cons s p ih =>
    rw [List.forall_mem_cons, ← ih]
    cases s with
    | terminal c => simp [mem_reading_terminal]
    | nonterminal nt => simp [mem_reading_nonterminal]

/-- A list that begins with a symbol stands for the empty word when the symbol and the rest do. -/
theorem nil_mem_reading_cons {L : Nonterminal → Words} {s : Symbol} {p : Production} :
    [] ∈ reading L (s :: p) ↔ (∃ nt, s = .nonterminal nt ∧ [] ∈ L nt) ∧ [] ∈ reading L p := by
  rw [nil_mem_reading_iff, List.forall_mem_cons, ← nil_mem_reading_iff]

/-- All symbols of a production can be left out when each is a nonterminal of the list. -/
theorem isNullable_iff {nullable : List Nonterminal} {p : Production} :
    isNullable nullable p = true ↔ ∀ s ∈ p, ∃ nt, s = .nonterminal nt ∧ nt ∈ nullable := by
  rw [isNullable, List.all_eq_true]
  refine forall₂_congr fun s _ => ?_
  cases s <;> simp [Symbol.isOmittable]

theorem isNullable_congr {nullable nullable' : List Nonterminal} (h : ∀ nt, nt ∈ nullable ↔ nt ∈ nullable') (p : Production) :
    isNullable nullable p = isNullable nullable' p := by
  rw [Bool.eq_iff_iff, isNullable_iff, isNullable_iff]
  simp only [h]

/-- A production that has no terminal is the list of its nonterminals. -/
theorem eq_map_of_onlyNonterminals? {p : Production} {nts : List Nonterminal} (h : onlyNonterminals? p = some nts) :
    p = nts.map Symbol.nonterminal := by
  induction p generalizing nts with
  | nil => cases h; rfl
  | cons s p ih =>
    cases s with
    | terminal c => cases h
    | nonterminal nt =>
      obtain ⟨rest, hr, rfl⟩ := Option.map_eq_some_iff.1 h
      rw [List.map_cons, ← ih hr]

/-- A variant of a production keeps or leaves out its first symbol, and is a variant of the rest after it. -/
theorem mem_variants_cons {nullable : List Nonterminal} {s : Symbol} {p q : Production} :
    q ∈ variants nullable (s :: p) ↔
      ∃ v ∈ variants nullable p, q = s :: v ∨ s.isOmittable nullable = true ∧ q = v := by
  rw [variants, distinctProductions_eq_distinct, mem_distinct, List.mem_flatMap]
  refine exists_congr fun v => and_congr_right fun _ => ?_
  split <;> rename_i h <;> simp [h]

/-- A variant mentions nothing new. -/
theorem mem_of_mem_variants {nullable : List Nonterminal} {p q : Production} (h : q ∈ variants nullable p) :
    ∀ s ∈ q, s ∈ p := by
  induction p generalizing q with
  | nil =>
    rw [variants, List.mem_singleton] at h
    exact fun s hs => h ▸ hs
  | cons t p ih =>
    obtain ⟨v, hv, rfl | ⟨-, rfl⟩⟩ := mem_variants_cons.1 h
    · intro s hs
      rcases List.mem_cons.1 hs with rfl | hs
      · exact List.mem_cons_self
      · exact List.mem_cons_of_mem t (ih hv s hs)
    · exact fun s hs => List.mem_cons_of_mem t (ih hv s hs)

/-- The words of a variant are words of the production, as long as what can be left out stands for the empty word. -/
theorem mem_reading_of_mem_variants {nullable : List Nonterminal} {L : Nonterminal → Words}
    (hL : ∀ nt ∈ nullable, [] ∈ L nt) {p q : Production} (h : q ∈ variants nullable p) :
    ∀ word ∈ reading L q, word ∈ reading L p := by
  induction p generalizing q with
  | nil =>
    rw [variants, List.mem_singleton] at h
    exact fun word hw => h ▸ hw
  | cons s p ih =>
    intro word hw
    obtain ⟨v, hv, rfl | ⟨hs, rfl⟩⟩ := mem_variants_cons.1 h
    · rw [reading_cons, Language.mem_mul] at hw ⊢
      obtain ⟨a, ha, b, hb, rfl⟩ := hw
      exact ⟨a, ha, b, ih hv b hb, rfl⟩
    · cases s with
      | terminal c => cases hs
      | nonterminal nt =>
        have hn : nt ∈ nullable := List.contains_iff_mem.1 hs
        exact mem_reading_nonterminal.2 ⟨[], hL nt hn, word, ih hv word hw, rfl⟩

/-- A word of a production is a word of the variant that leaves out what contributes nothing to it. -/
theorem exists_variant_of_mem_reading {nullable : List Nonterminal} {L M : Nonterminal → Words}
    (hM : ∀ nt, ∀ word ∈ M nt, word ∈ L nt ∨ word = [] ∧ nt ∈ nullable) {p : Production} {word : List Char}
    (h : word ∈ reading M p) : ∃ q ∈ variants nullable p, word ∈ reading L q := by
  induction p generalizing word with
  | nil => exact ⟨[], List.mem_singleton.2 rfl, h⟩
  | cons s p ih =>
    cases s with
    | terminal c =>
      obtain ⟨rest, hr, rfl⟩ := mem_reading_terminal.1 h
      obtain ⟨q, hq, hw⟩ := ih hr
      exact ⟨.terminal c :: q, mem_variants_cons.2 ⟨q, hq, Or.inl rfl⟩, mem_reading_terminal.2 ⟨rest, hw, rfl⟩⟩
    | nonterminal nt =>
      obtain ⟨u, hu, v, hv, rfl⟩ := mem_reading_nonterminal.1 h
      obtain ⟨q, hq, hw⟩ := ih hv
      rcases hM nt u hu with hu | ⟨rfl, hn⟩
      · exact ⟨.nonterminal nt :: q, mem_variants_cons.2 ⟨q, hq, Or.inl rfl⟩,
          mem_reading_nonterminal.2 ⟨u, hu, v, hw, rfl⟩⟩
      · exact ⟨q, mem_variants_cons.2 ⟨q, hq, Or.inr ⟨List.contains_iff_mem.2 hn, rfl⟩⟩, hw⟩

end Production

namespace Grammar

/-! ## Nullable nonterminals -/

/-- The nullable nonterminals generate the empty word. -/
theorem nil_mem_words_of_mem_nullable {g : Grammar} : ∀ nt ∈ g.nullable, [] ∈ g.words nt := by
  refine saturate_induction fun c hc hbody => ?_
  obtain ⟨⟨nt, p⟩, hp, hmap⟩ := List.mem_filterMap.1 hc
  obtain ⟨nts, hnts, rfl⟩ := Option.map_eq_some_iff.1 hmap
  refine words_closed g nt p (Rules.mem_productions.1 hp) [] (Production.nil_mem_reading_iff.2 fun s hs => ?_)
  rw [show p = nts.map Symbol.nonterminal from Production.eq_map_of_onlyNonterminals? hnts] at hs
  obtain ⟨m, hm, rfl⟩ := List.mem_map.1 hs
  exact ⟨m, rfl, hbody m hm⟩

/-- The nullable nonterminals are those that generate the empty word. -/
theorem mem_nullable_iff {g : Grammar} {nt : Nonterminal} : nt ∈ g.nullable ↔ [] ∈ g.words nt := by
  refine ⟨nil_mem_words_of_mem_nullable nt, fun h => ?_⟩
  have hL : g.Closed fun nt => {word | word = [] → nt ∈ g.nullable} := by
    intro m p hp word hw hword
    subst hword
    refine mem_nullable_of_isNullable hp (Production.isNullable_iff.2 fun s hs => ?_)
    obtain ⟨k, rfl, hk⟩ := Production.nil_mem_reading_iff.1 hw s hs
    exact ⟨k, rfl, hk rfl⟩
  exact words_le hL h rfl

/-- The productions that can vanish are those that stand for the empty word. -/
theorem isNullable_nullable_iff {g : Grammar} {p : Production} :
    Production.isNullable g.nullable p = true ↔ [] ∈ reading g.words p := by
  rw [Production.isNullable_iff, Production.nil_mem_reading_iff]
  simp only [mem_nullable_iff]

/-! ## Empty productions -/

@[simp] theorem start_withoutEmpty (g : Grammar) : g.withoutEmpty.start = g.start := rfl

@[simp] theorem declared_withoutEmpty (g : Grammar) : g.withoutEmpty.declared = g.declared := Rules.declared_map _ _

/-- The productions of the grammar without empty productions are the variants that are not empty. -/
theorem mem_productionsOf_withoutEmpty {g : Grammar} {nt : Nonterminal} {q : Production} :
    q ∈ g.withoutEmpty.productionsOf nt ↔ q ≠ [] ∧ ∃ p ∈ g.productionsOf nt, q ∈ Production.variants g.nullable p := by
  have hrules : g.withoutEmpty.rules = g.rules.map fun _ a => .ofList (expandedProductions g.nullable a.toList) := rfl
  rw [mem_productionsOf_map hrules]
  simp only [Alternatives.toList_ofList, mem_distinct, expandedProductions, List.mem_filter, List.mem_flatMap,
    Bool.not_eq_true', List.isEmpty_eq_false_iff]
  constructor
  · rintro ⟨a, ha, ⟨p, hp, hq⟩, hne⟩
    exact ⟨hne, p, toList_of_get? ha ▸ hp, hq⟩
  · rintro ⟨hne, p, hp, hq⟩
    obtain ⟨a, ha, hal⟩ := exists_get?_of_declared (declared_of_mem_productionsOf hp)
    exact ⟨a, ha, ⟨p, hal ▸ hp, hq⟩, hne⟩

/-- In a grammar without empty productions nothing generates the empty word. -/
theorem nil_not_mem_words {g : Grammar} (h : ∀ nt, [] ∉ g.productionsOf nt) (nt : Nonterminal) : [] ∉ g.words nt := by
  intro hw
  have hL : g.Closed fun _ => {word | word ≠ []} := by
    rintro m p hp word hword rfl
    cases p with
    | nil => exact h m hp
    | cons s p =>
      obtain ⟨k, rfl, hk⟩ := Production.nil_mem_reading_iff.1 hword s List.mem_cons_self
      exact hk rfl
  exact words_le hL hw rfl

theorem nil_not_mem_productionsOf_withoutEmpty (g : Grammar) (nt : Nonterminal) :
    [] ∉ g.withoutEmpty.productionsOf nt := fun h =>
  (mem_productionsOf_withoutEmpty.1 h).1 rfl

/-- Without empty productions every nonterminal generates what it did, less the empty word. -/
theorem mem_words_withoutEmpty_iff {g : Grammar} {nt : Nonterminal} {word : List Char} :
    word ∈ g.withoutEmpty.words nt ↔ word ∈ g.words nt ∧ word ≠ [] := by
  constructor
  · intro h
    refine ⟨words_le (L := g.words) ?_ h, ?_⟩
    · intro m q hq w hw
      obtain ⟨-, p, hp, hv⟩ := mem_productionsOf_withoutEmpty.1 hq
      exact words_closed g m p hp w
        (Production.mem_reading_of_mem_variants nil_mem_words_of_mem_nullable hv w hw)
    · rintro rfl
      exact nil_not_mem_words (nil_not_mem_productionsOf_withoutEmpty g) nt h
  · rintro ⟨h, hne⟩
    have hL : g.Closed fun m => {w | w ∈ g.withoutEmpty.words m ∨ w = [] ∧ m ∈ g.nullable} := by
      intro m p hp w hw
      obtain ⟨q, hq, hr⟩ := Production.exists_variant_of_mem_reading (L := g.withoutEmpty.words) (fun _ _ hu => hu) hw
      by_cases hnil : q = []
      · subst hnil
        refine Or.inr ⟨Production.mem_reading_nil.1 hr, mem_nullable_iff.2 (words_closed g m p hp [] ?_)⟩
        exact Production.mem_reading_of_mem_variants nil_mem_words_of_mem_nullable hq []
          (Production.mem_reading_nil.2 rfl)
      · exact Or.inl (words_closed _ m q (mem_productionsOf_withoutEmpty.2 ⟨hnil, p, hp, hq⟩) w hr)
    exact (words_le hL h).resolve_right fun hn => hne hn.1

/-- Removing empty productions keeps a grammar well-formed. -/
theorem WellFormed.withoutEmpty {g : Grammar} (h : g.WellFormed) : g.withoutEmpty.WellFormed := by
  refine ⟨by simpa using h.start, fun nt q hq m hm => ?_⟩
  obtain ⟨-, p, hp, hv⟩ := mem_productionsOf_withoutEmpty.1 hq
  simpa using h.mention nt p hp m (Production.mem_of_mem_variants hv _ hm)

/-- The grammar without empty productions has none, and declares what was declared, in the same order. Every nonterminal, declared
or not, generates what it did, less the empty word. -/
theorem withoutEmpty_exact (g : Grammar) :
    (∀ nt, [] ∉ g.withoutEmpty.productionsOf nt) ∧ g.withoutEmpty.declared = g.declared ∧
    ∀ nt word, g.withoutEmpty.Generates nt word ↔ g.Generates nt word ∧ word ≠ [] :=
  ⟨g.nil_not_mem_productionsOf_withoutEmpty, g.declared_withoutEmpty, fun _ _ => mem_words_withoutEmpty_iff⟩

end Grammar

end TopDown
