import TopDown.LeftRecursion.Elimination
import TopDown.Proofs.WellFormed
import TopDown.Proofs.Words

/-!
# Eliminating left recursion keeps the words

Each nonterminal is taken in two moves, and each move keeps what every nonterminal generates. Substitution exchanges a leading
nonterminal for its productions, which stand for the same words. Direct recursion `A → A α | β` stands for `β` followed by any
number of `α`; its tail stands for at least one `α`, and the tail can be grown at either end.

Main statements: `mem_words_substituted_iff`, `TailSplit.wellFormed` and `Elimination.mem_words_run_iff`.
-/

namespace TopDown

open Production (reading readings mem_readings)

namespace Production

/-- A production begins with a nonterminal when this is its first symbol. -/
theorem beginsWith_iff {nt : Nonterminal} {p : Production} : beginsWith nt p = true ↔ ∃ rest, p = .nonterminal nt :: rest := by
  cases p with
  | nil => simp [beginsWith]
  | cons s p => simp [beginsWith]

/-- What a production becomes when a leading nonterminal is exchanged for its expansions. -/
theorem mem_expandLeading {nt : Nonterminal} {expansions : List Production} {p q : Production} :
    q ∈ expandLeading nt expansions p ↔
      q = p ∧ beginsWith nt p = false ∨ ∃ rest, p = .nonterminal nt :: rest ∧ ∃ e ∈ expansions, q = e ++ rest := by
  unfold expandLeading
  cases hb : beginsWith nt p with
  | true =>
    obtain ⟨rest, rfl⟩ := beginsWith_iff.1 hb
    simp [eq_comm]
  | false =>
    have hnot : ∀ rest, p ≠ .nonterminal nt :: rest := by
      intro rest he
      rw [beginsWith_iff.2 ⟨rest, he⟩] at hb
      cases hb
    simp [hnot]

theorem mem_withTail {tail : Nonterminal} {ps : List Production} {q : Production} :
    q ∈ withTail tail ps ↔ q ∈ ps ∨ ∃ p ∈ ps, q = p ++ [.nonterminal tail] := by
  simp [withTail, eq_comm]

/-- A tail makes no production empty. -/
theorem nil_not_mem_withTail {tail : Nonterminal} {ps : List Production} (h : [] ∉ ps) : [] ∉ withTail tail ps := by
  intro hnil
  rcases mem_withTail.1 hnil with hnil | ⟨p, -, heq⟩
  · exact h hnil
  · simp at heq

/-- Productions with a tail mention what they did and the tail. -/
theorem mention_withTail {tail m : Nonterminal} {ps : List Production} {q : Production} (hq : q ∈ withTail tail ps)
    (hm : .nonterminal m ∈ q) : m = tail ∨ ∃ p ∈ ps, .nonterminal m ∈ p := by
  rcases mem_withTail.1 hq with hq | ⟨p, hp, rfl⟩
  · exact Or.inr ⟨q, hq, hm⟩
  · rcases List.mem_append.1 hm with hm | hm
    · exact Or.inr ⟨p, hp, hm⟩
    · cases List.mem_singleton.1 hm
      exact Or.inl rfl

/-- Productions with a tail begin with what they did, if they are not empty. -/
theorem beginning_withTail {tail : Nonterminal} {s : Symbol} {ps : List Production} {rest : Production} (hne : [] ∉ ps)
    (hq : s :: rest ∈ withTail tail ps) : ∃ rest', s :: rest' ∈ ps := by
  rcases mem_withTail.1 hq with hq | ⟨p, hp, heq⟩
  · exact ⟨rest, hq⟩
  · cases p with
    | nil => exact absurd hp hne
    | cons t p =>
      cases heq
      exact ⟨p, hp⟩

end Production

namespace Grammar

/-! ## Substitution -/

/-- Substitution keeps what does not begin with the earlier nonterminal and expands the rest. -/
theorem mem_substituteLeading {g : Grammar} {ps : List Production} {earlier : Nonterminal} {q : Production} :
    q ∈ g.substituteLeading ps earlier ↔
      q ∈ ps ∧ Production.beginsWith earlier q = false ∨
        ∃ rest, .nonterminal earlier :: rest ∈ ps ∧ ∃ e ∈ g.productionsOf earlier, q = e ++ rest := by
  unfold substituteLeading
  split
  · rw [distinctProductions_eq_distinct, mem_distinct, List.mem_flatMap]
    simp only [Production.mem_expandLeading]
    constructor
    · rintro ⟨p, hp, ⟨rfl, hb⟩ | ⟨rest, rfl, he⟩⟩
      · exact Or.inl ⟨hp, hb⟩
      · exact Or.inr ⟨rest, hp, he⟩
    · rintro (⟨hq, hb⟩ | ⟨rest, hp, he⟩)
      · exact ⟨q, hq, Or.inl ⟨rfl, hb⟩⟩
      · exact ⟨_, hp, Or.inr ⟨rest, rfl, he⟩⟩
  · rename_i hany
    have hnone : ∀ p ∈ ps, Production.beginsWith earlier p = false := by
      simpa using hany
    constructor
    · exact fun hq => Or.inl ⟨hq, hnone q hq⟩
    · rintro (⟨hq, -⟩ | ⟨rest, hp, -⟩)
      · exact hq
      · have hb := hnone _ hp
        rw [Production.beginsWith_iff.2 ⟨rest, rfl⟩] at hb
        cases hb

/-- Substitution keeps the words of the productions wherever the earlier nonterminal stands for those of its own. -/
theorem mem_readings_substituteLeading {g : Grammar} {L : Nonterminal → Words} {ps : List Production}
    {earlier : Nonterminal} (hL : ∀ word, word ∈ L earlier ↔ word ∈ readings L (g.productionsOf earlier))
    {word : List Char} : word ∈ readings L (g.substituteLeading ps earlier) ↔ word ∈ readings L ps := by
  constructor
  · rintro ⟨q, hq, hw⟩
    rcases mem_substituteLeading.1 hq with ⟨hq, -⟩ | ⟨rest, hp, e, he, rfl⟩
    · exact ⟨q, hq, hw⟩
    · obtain ⟨u, hu, v, hv, rfl⟩ := Production.mem_reading_append.1 hw
      exact ⟨_, hp, Production.mem_reading_nonterminal.2 ⟨u, (hL u).2 ⟨e, he, hu⟩, v, hv, rfl⟩⟩
  · rintro ⟨p, hp, hw⟩
    cases hb : Production.beginsWith earlier p with
    | false => exact ⟨p, mem_substituteLeading.2 (Or.inl ⟨hp, hb⟩), hw⟩
    | true =>
      obtain ⟨rest, rfl⟩ := Production.beginsWith_iff.1 hb
      obtain ⟨u, hu, v, hv, rfl⟩ := Production.mem_reading_nonterminal.1 hw
      obtain ⟨e, he, hue⟩ := (hL u).1 hu
      have hq := mem_substituteLeading.2 (Or.inr ⟨rest, hp, e, he, rfl⟩)
      exact ⟨e ++ rest, hq, Production.mem_reading_append.2 ⟨u, hue, v, hv, rfl⟩⟩

/-- The same for several earlier nonterminals in turn. -/
theorem mem_readings_foldl_substituteLeading {g : Grammar} {L : Nonterminal → Words} {ps : List Production}
    {earlier : List Nonterminal}
    (hL : ∀ e ∈ earlier, ∀ word, word ∈ L e ↔ word ∈ readings L (g.productionsOf e)) {word : List Char} :
    word ∈ readings L (earlier.foldl g.substituteLeading ps) ↔ word ∈ readings L ps := by
  induction earlier generalizing ps with
  | nil => exact Iff.rfl
  | cons e earlier ih =>
    rw [List.foldl_cons, ih fun e' he' => hL e' (List.mem_cons_of_mem e he')]
    exact mem_readings_substituteLeading (hL e List.mem_cons_self)

@[simp] theorem start_substituted (g : Grammar) (earlier : List Nonterminal) (nt : Nonterminal) :
    (g.substituted earlier nt).start = g.start := rfl

/-- The productions after substitution. -/
theorem mem_productionsOf_substituted {g : Grammar} {earlier : List Nonterminal} {nt m : Nonterminal} {p : Production} :
    p ∈ (g.substituted earlier nt).productionsOf m ↔
      if m = nt then p ∈ earlier.foldl g.substituteLeading (g.productionsOf nt) else p ∈ g.productionsOf m := by
  rw [substituted, productionsOf_setProductions]
  split
  · rw [mem_distinct]
  · exact Iff.rfl

/-- The productions of any other nonterminal are left alone. -/
theorem mem_productionsOf_substituted_of_ne {g : Grammar} {earlier : List Nonterminal} {nt m : Nonterminal} (h : m ≠ nt)
    {p : Production} : p ∈ (g.substituted earlier nt).productionsOf m ↔ p ∈ g.productionsOf m := by
  rw [mem_productionsOf_substituted, if_neg h]

/-- The symbols after a substitution were there before. -/
theorem exists_mem_of_foldl_substituteLeading {g : Grammar} {es : List Nonterminal} {ps : List Production} {q : Production}
    {s : Symbol} (hq : q ∈ es.foldl g.substituteLeading ps) (hs : s ∈ q) :
    ∃ p, s ∈ p ∧ (p ∈ ps ∨ ∃ e, p ∈ g.productionsOf e) := by
  induction es generalizing ps with
  | nil => exact ⟨q, hs, Or.inl hq⟩
  | cons e es ih =>
    obtain ⟨p, hsp, hp | hp⟩ := ih hq
    · rcases mem_substituteLeading.1 hp with ⟨hp, -⟩ | ⟨rest, hrest, d, hd, rfl⟩
      · exact ⟨p, hsp, Or.inl hp⟩
      · rcases List.mem_append.1 hsp with hsp | hsp
        · exact ⟨d, hsp, Or.inr ⟨e, hd⟩⟩
        · exact ⟨_, List.mem_cons_of_mem _ hsp, Or.inl hrest⟩
    · exact ⟨p, hsp, Or.inr hp⟩

/-- Where there is no production, substitution makes none. -/
theorem foldl_substituteLeading_nil (g : Grammar) (es : List Nonterminal) : es.foldl g.substituteLeading [] = [] := by
  induction es with
  | nil => rfl
  | cons e es ih => exact ih

/-- A substitution makes no empty production. -/
theorem nil_not_mem_foldl_substituteLeading {g : Grammar} (hg : ∀ nt, [] ∉ g.productionsOf nt) {es : List Nonterminal}
    {ps : List Production} (hps : [] ∉ ps) : [] ∉ es.foldl g.substituteLeading ps := by
  induction es generalizing ps with
  | nil => exact hps
  | cons e es ih =>
    refine ih fun hq => ?_
    rcases mem_substituteLeading.1 hq with ⟨hq, -⟩ | ⟨rest, -, d, hd, heq⟩
    · exact hps hq
    · obtain ⟨rfl, -⟩ := List.append_eq_nil_iff.1 heq.symm
      exact hg e hd

/-- Substitution keeps a grammar well-formed. -/
theorem WellFormed.substituted {g : Grammar} (hg : g.WellFormed) (earlier : List Nonterminal) (nt : Nonterminal) :
    (g.substituted earlier nt).WellFormed := by
  have hd : ∀ m ∈ g.declared, m ∈ (g.substituted earlier nt).declared := fun m hm =>
    mem_declared_setProductions.2 (Or.inr hm)
  refine ⟨hd _ hg.start, fun k q hq m hm => hd m ?_⟩
  rw [mem_productionsOf_substituted] at hq
  split at hq
  · obtain ⟨p, hmp, hp | ⟨e, hp⟩⟩ := exists_mem_of_foldl_substituteLeading hq hm
    · exact hg.mention nt p hp m hmp
    · exact hg.mention e p hp m hmp
  · exact hg.mention k q hq m hm

/-- Substitution makes no empty production. -/
theorem nil_not_mem_productionsOf_substituted {g : Grammar} (hg : ∀ nt, [] ∉ g.productionsOf nt)
    (earlier : List Nonterminal) (nt m : Nonterminal) : [] ∉ (g.substituted earlier nt).productionsOf m := by
  rw [mem_productionsOf_substituted]
  split
  · exact nil_not_mem_foldl_substituteLeading hg (hg nt)
  · exact hg m

/-- Substitution for other nonterminals keeps the words of every nonterminal. -/
theorem mem_words_substituted_iff {g : Grammar} {earlier : List Nonterminal} {nt : Nonterminal} (hnt : nt ∉ earlier)
    {m : Nonterminal} {word : List Char} : word ∈ (g.substituted earlier nt).words m ↔ word ∈ g.words m := by
  constructor
  · refine words_le fun k p hp w hw => ?_
    rw [mem_productionsOf_substituted] at hp
    split at hp
    · rename_i hk
      subst hk
      have hr := (mem_readings_foldl_substituteLeading fun e _ _ => mem_words_iff).1 (mem_readings.2 ⟨p, hp, hw⟩)
      exact mem_words_iff.2 hr
    · exact words_closed g k p hp w hw
  · refine words_le fun k p hp w hw => ?_
    by_cases hk : k = nt
    · subst hk
      have hL : ∀ e ∈ earlier, ∀ u, u ∈ (g.substituted earlier k).words e ↔
          u ∈ readings (g.substituted earlier k).words (g.productionsOf e) := by
        intro e he u
        have hne : e ≠ k := fun h => hnt (h ▸ he)
        rw [mem_words_iff, mem_readings]
        simp only [mem_productionsOf_substituted_of_ne hne]
      obtain ⟨q, hq, hwq⟩ := (mem_readings_foldl_substituteLeading hL).2 (mem_readings.2 ⟨p, hp, hw⟩)
      exact words_closed _ k q (mem_productionsOf_substituted.2 (by rwa [if_pos rfl])) w hwq
    · exact words_closed _ k p ((mem_productionsOf_substituted_of_ne hk).2 hp) w hw

/-! ## Direct recursion -/

theorem mem_nonrecursiveOf {g : Grammar} {nt : Nonterminal} {p : Production} :
    p ∈ g.nonrecursiveOf nt ↔ p ∈ g.productionsOf nt ∧ Production.beginsWith nt p = false := by
  simp [nonrecursiveOf]

/-- What follows a nonterminal in its own productions, where anything does. -/
theorem mem_recursiveTailsOf {g : Grammar} {nt : Nonterminal} {t : Production} :
    t ∈ g.recursiveTailsOf nt ↔ .nonterminal nt :: t ∈ g.productionsOf nt ∧ t ≠ [] := by
  simp only [recursiveTailsOf, List.mem_filter, List.mem_map, Bool.not_eq_true', List.isEmpty_eq_false_iff]
  refine and_congr_left fun _ => ?_
  constructor
  · rintro ⟨p, ⟨hp, hb⟩, rfl⟩
    obtain ⟨rest, rfl⟩ := Production.beginsWith_iff.1 hb
    exact hp
  · intro hp
    exact ⟨_, ⟨hp, Production.beginsWith_iff.2 ⟨t, rfl⟩⟩, rfl⟩

/-- A production begins with its own nonterminal and something follows, or it is the nonterminal alone, or neither. -/
theorem cases_of_mem_productionsOf {g : Grammar} {nt : Nonterminal} {p : Production} (hp : p ∈ g.productionsOf nt) :
    p ∈ g.nonrecursiveOf nt ∨ p = [.nonterminal nt] ∨ ∃ t ∈ g.recursiveTailsOf nt, p = .nonterminal nt :: t := by
  cases hb : Production.beginsWith nt p with
  | false => exact Or.inl (mem_nonrecursiveOf.2 ⟨hp, hb⟩)
  | true =>
    obtain ⟨rest, rfl⟩ := Production.beginsWith_iff.1 hb
    by_cases hr : rest = []
    · exact Or.inr (Or.inl (by rw [hr]))
    · exact Or.inr (Or.inr ⟨rest, mem_recursiveTailsOf.2 ⟨hp, hr⟩, rfl⟩)

/-- A grammar in which the direct recursion of one nonterminal became a tail. -/
structure TailSplit (g h : Grammar) (nt tail : Nonterminal) : Prop where
  start : h.start = g.start
  declared : ∀ m, m ∈ h.declared ↔ m = tail ∨ m ∈ g.declared
  above : g.maxNonterminal < tail
  split : ∀ p, p ∈ h.productionsOf nt ↔ p ∈ withTail tail (g.nonrecursiveOf nt)
  tails : ∀ p, p ∈ h.productionsOf tail ↔ p ∈ withTail tail (g.recursiveTailsOf nt)
  others : ∀ m, m ≠ nt → m ≠ tail → ∀ p, p ∈ h.productionsOf m ↔ p ∈ g.productionsOf m

namespace TailSplit

variable {g h : Grammar} {nt tail : Nonterminal}

theorem ne_tail (hs : TailSplit g h nt tail) {m : Nonterminal} (hm : m ∈ g.declared) : m ≠ tail :=
  Nat.ne_of_lt (Nat.lt_of_le_of_lt (le_maxNonterminal_of_declared hm) hs.above)

theorem lt_tail_of_mention (hs : TailSplit g h nt tail) {k m : Nonterminal} {p : Production} (hp : p ∈ g.productionsOf k)
    (hm : .nonterminal m ∈ p) : m < tail :=
  Nat.lt_of_le_of_lt (le_maxNonterminal_of_mention hp hm) hs.above

/-- What a production mentions was mentioned before, or is the tail. -/
theorem mention_cases (hs : TailSplit g h nt tail) {k m : Nonterminal} {p : Production} (hp : p ∈ h.productionsOf k)
    (hm : .nonterminal m ∈ p) : m = tail ∨ ∃ j, ∃ q ∈ g.productionsOf j, .nonterminal m ∈ q := by
  by_cases hkt : k = tail
  · subst hkt
    refine (Production.mention_withTail ((hs.tails p).1 hp) hm).imp id ?_
    rintro ⟨t, ht, hmt⟩
    exact ⟨nt, _, (mem_recursiveTailsOf.1 ht).1, List.mem_cons_of_mem _ hmt⟩
  by_cases hkn : k = nt
  · subst hkn
    refine (Production.mention_withTail ((hs.split p).1 hp) hm).imp id ?_
    rintro ⟨o, ho, hmo⟩
    exact ⟨k, o, (mem_nonrecursiveOf.1 ho).1, hmo⟩
  · exact Or.inr ⟨k, p, (hs.others k hkn hkt p).1 hp, hm⟩

/-- Splitting off a tail keeps a grammar well-formed. -/
theorem wellFormed (hs : TailSplit g h nt tail) (hg : g.WellFormed) : h.WellFormed := by
  refine ⟨hs.start ▸ (hs.declared _).2 (Or.inr hg.start), fun k p hp m hm => (hs.declared m).2 ?_⟩
  refine (hs.mention_cases hp hm).imp id ?_
  rintro ⟨j, q, hq, hmq⟩
  exact hg.mention j q hq m hmq

/-- Splitting off a tail makes no empty production. -/
theorem noEmpty (hs : TailSplit g h nt tail) (hg : ∀ k, [] ∉ g.productionsOf k) (k : Nonterminal) :
    [] ∉ h.productionsOf k := by
  by_cases hkt : k = tail
  · subst hkt
    exact fun hp => Production.nil_not_mem_withTail (fun ht => (mem_recursiveTailsOf.1 ht).2 rfl) ((hs.tails []).1 hp)
  by_cases hkn : k = nt
  · subst hkn
    exact fun hp => Production.nil_not_mem_withTail (fun ho => hg k (mem_nonrecursiveOf.1 ho).1) ((hs.split []).1 hp)
  · exact fun hp => hg k ((hs.others k hkn hkt []).1 hp)

/-- The words of one round: what follows the nonterminal in its own productions. -/
def round (g : Grammar) (nt : Nonterminal) : Words := readings g.words (g.recursiveTailsOf nt)

/-- Any number of rounds can be put after a word of the nonterminal. -/
theorem words_mul_kstar_round_le : g.words nt * KStar.kstar (round g nt) ≤ g.words nt := by
  refine mul_kstar_le_self ?_
  rintro _ ⟨u, hu, v, ⟨t, ht, hv⟩, rfl⟩
  exact words_closed g nt _ (mem_recursiveTailsOf.1 ht).1 _
    (Production.mem_reading_nonterminal.2 ⟨u, hu, v, hv, rfl⟩)

theorem round_mul_kstar_le : round g nt * KStar.kstar (round g nt) ≤ KStar.kstar (round g nt) := mul_kstar_le_kstar

/-- What nonterminals are to stand for after the split: what they did, and the tail for one round or more. -/
def splitWords (g : Grammar) (nt tail : Nonterminal) : Nonterminal → Words :=
  Function.update g.words tail (round g nt * KStar.kstar (round g nt))

theorem splitWords_tail : splitWords g nt tail tail = round g nt * KStar.kstar (round g nt) := Function.update_self ..

/-- All but the tail stand for what they generated. -/
theorem splitWords_of_ne {m : Nonterminal} (hm : m ≠ tail) : splitWords g nt tail m = g.words m :=
  Function.update_of_ne hm ..

/-- Symbols that do not have the tail among them stand for the same as before. -/
theorem reading_splitWords (hs : TailSplit g h nt tail) {k : Nonterminal} {p q : Production} (hp : p ∈ g.productionsOf k)
    (hq : ∀ s ∈ q, s ∈ p) : reading (splitWords g nt tail) q = reading g.words q :=
  Production.reading_update fun hm => Nat.lt_irrefl _ (hs.lt_tail_of_mention hp (hq _ hm))

/-- What follows the nonterminal in a production of its own stands for a round. -/
theorem mem_round_of_mem_reading (hs : TailSplit g h nt tail) {t : Production} (ht : t ∈ g.recursiveTailsOf nt)
    {word : List Char} (hw : word ∈ reading (splitWords g nt tail) t) : word ∈ round g nt := by
  rw [hs.reading_splitWords (mem_recursiveTailsOf.1 ht).1 fun _ hmem => List.mem_cons_of_mem _ hmem] at hw
  exact ⟨t, ht, hw⟩

/-- The productions of the tail stand for one round or more. -/
theorem closed_tail (hs : TailSplit g h nt tail) {p : Production} (hp : p ∈ h.productionsOf tail) {word : List Char}
    (hw : word ∈ reading (splitWords g nt tail) p) : word ∈ splitWords g nt tail tail := by
  rw [splitWords_tail]
  rcases Production.mem_withTail.1 ((hs.tails p).1 hp) with ht | ⟨t, ht, rfl⟩
  · exact ⟨word, hs.mem_round_of_mem_reading ht hw, [], Language.nil_mem_kstar _, List.append_nil word⟩
  · rw [Production.reading_append, Production.reading_singleton, splitWords_tail] at hw
    obtain ⟨a, ha, b, hb, rfl⟩ := hw
    exact Language.append_mem_mul (hs.mem_round_of_mem_reading ht ha) (round_mul_kstar_le hb)

/-- The productions of the nonterminal that was split stand for words that it generated. -/
theorem closed_split (hs : TailSplit g h nt tail) {p : Production} (hp : p ∈ h.productionsOf nt) {word : List Char}
    (hw : word ∈ reading (splitWords g nt tail) p) : word ∈ g.words nt := by
  have hone : ∀ o ∈ g.nonrecursiveOf nt, ∀ w ∈ reading (splitWords g nt tail) o, w ∈ g.words nt := by
    intro o ho w hw
    have ho := (mem_nonrecursiveOf.1 ho).1
    rw [hs.reading_splitWords ho fun _ hmem => hmem] at hw
    exact words_closed g nt o ho w hw
  rcases Production.mem_withTail.1 ((hs.split p).1 hp) with ho | ⟨o, ho, rfl⟩
  · exact hone p ho word hw
  · rw [Production.reading_append, Production.reading_singleton, splitWords_tail] at hw
    obtain ⟨a, ha, b, hb, rfl⟩ := hw
    exact words_mul_kstar_round_le (Language.append_mem_mul (hone o ho a ha) (round_mul_kstar_le hb))

/-- What nonterminals are to stand for is closed under the productions after the split. -/
theorem closed_splitWords (hs : TailSplit g h nt tail) : h.Closed (splitWords g nt tail) := by
  intro k p hp word hw
  by_cases hk : k = tail
  · subst hk
    exact hs.closed_tail hp hw
  · rw [splitWords_of_ne hk]
    by_cases hkn : k = nt
    · subst hkn
      exact hs.closed_split hp hw
    · have hp := (hs.others k hkn hk p).1 hp
      rw [hs.reading_splitWords hp fun _ hmem => hmem] at hw
      exact words_closed g k p hp word hw

/-- After the split no nonterminal but the tail generates more than before. -/
theorem mem_words_of_mem (hs : TailSplit g h nt tail) {m : Nonterminal} (hm : m ≠ tail) {word : List Char}
    (hw : word ∈ h.words m) : word ∈ g.words m := by
  have hword := words_le hs.closed_splitWords hw
  rwa [splitWords_of_ne hm] at hword

/-- The words of the tail that can be grown at their end. -/
def growing (g h : Grammar) (nt tail : Nonterminal) : Words :=
  {w | w ∈ h.words tail ∧ ∀ t ∈ g.recursiveTailsOf nt, ∀ v ∈ reading h.words t, w ++ v ∈ h.words tail}

/-- Words that can be grown are words of the tail. -/
theorem reading_growing_le :
    ∀ p, ∀ w ∈ reading (Function.update h.words tail (growing g h nt tail)) p, w ∈ reading h.words p := by
  refine fun p => Production.reading_mono fun k _ w hw => ?_
  by_cases hk : k = tail
  · subst hk
    rw [Function.update_self] at hw
    exact hw.1
  · rwa [Function.update_of_ne hk] at hw

/-- The productions of the tail stand for words that can be grown, if the tail stands for such words. -/
theorem closed_growing (hs : TailSplit g h nt tail) {p : Production} (hp : p ∈ h.productionsOf tail) {word : List Char}
    (hw : word ∈ reading (Function.update h.words tail (growing g h nt tail)) p) : word ∈ growing g h nt tail := by
  have hword := reading_growing_le p word hw
  refine ⟨words_closed h tail p hp word hword, fun t ht v hv => ?_⟩
  rcases Production.mem_withTail.1 ((hs.tails p).1 hp) with hpt | ⟨p, hpt, rfl⟩
  · -- the tail was one round: now it is that round followed by a tail
    have hround : v ∈ h.words tail := words_closed h tail t ((hs.tails t).2 (Production.mem_withTail.2 (Or.inl ht))) v hv
    have hlonger := (hs.tails _).2 (Production.mem_withTail.2 (Or.inr ⟨p, hpt, rfl⟩))
    refine words_closed h tail _ hlonger (word ++ v) (Production.mem_reading_append.2 ⟨word, hword, v, ?_, rfl⟩)
    rwa [Production.reading_singleton]
  · -- the tail was a round followed by a tail, which grows
    rw [Production.reading_append, Production.reading_singleton, Function.update_self] at hw
    obtain ⟨a, ha, b, hb, rfl⟩ := hw
    rw [List.append_assoc]
    refine words_closed h tail _ hp _
      (Production.mem_reading_append.2 ⟨a, reading_growing_le p a ha, b ++ v, ?_, rfl⟩)
    rw [Production.reading_singleton]
    exact hb.2 t ht v hv

/-- A word of the tail can be grown at its end. -/
theorem append_mem_words_tail (hs : TailSplit g h nt tail) {u v : List Char} {t : Production} (hu : u ∈ h.words tail)
    (ht : t ∈ g.recursiveTailsOf nt) (hv : v ∈ reading h.words t) : u ++ v ∈ h.words tail := by
  have hclosed : h.Closed (Function.update h.words tail (growing g h nt tail)) := by
    intro k p hp w hw
    by_cases hk : k = tail
    · subst hk
      rw [Function.update_self]
      exact hs.closed_growing hp hw
    · rw [Function.update_of_ne hk]
      exact words_closed h k p hp w (reading_growing_le p w hw)
  have hgrow := words_le hclosed hu
  rw [Function.update_self] at hgrow
  exact hgrow.2 t ht v hv

/-- After the split every nonterminal generates what it did, and perhaps more. -/
theorem mem_words_of_mem_old (hs : TailSplit g h nt tail) {m : Nonterminal} {word : List Char} (hw : word ∈ g.words m) :
    word ∈ h.words m := by
  refine words_le (fun k p hp w hw => ?_) hw
  by_cases hkt : k = tail
  · exact absurd hkt (hs.ne_tail (declared_of_mem_productionsOf hp))
  by_cases hk : k = nt
  · subst hk
    rcases cases_of_mem_productionsOf hp with ho | rfl | ⟨t, ht, rfl⟩
    · exact words_closed h k p ((hs.split p).2 (Production.mem_withTail.2 (Or.inl ho))) w hw
    · rwa [Production.reading_singleton] at hw
    · obtain ⟨u, hu, v, hv, rfl⟩ := Production.mem_reading_nonterminal.1 hw
      obtain ⟨q, hq, huq⟩ := mem_words_iff.1 hu
      rcases Production.mem_withTail.1 ((hs.split q).1 hq) with ho | ⟨o, ho, rfl⟩
      · have hq' := (hs.split _).2 (Production.mem_withTail.2 (Or.inr ⟨q, ho, rfl⟩))
        refine words_closed h k _ hq' _ (Production.mem_reading_append.2 ⟨u, huq, v, ?_, rfl⟩)
        rw [Production.reading_singleton]
        exact words_closed h tail t ((hs.tails t).2 (Production.mem_withTail.2 (Or.inl ht))) v hv
      · rw [Production.reading_append, Production.reading_singleton] at huq
        obtain ⟨a, ha, b, hb, rfl⟩ := huq
        rw [List.append_assoc]
        refine words_closed h k _ hq _ (Production.mem_reading_append.2 ⟨a, ha, b ++ v, ?_, rfl⟩)
        rw [Production.reading_singleton]
        exact hs.append_mem_words_tail hb ht hv
  · exact words_closed h k p ((hs.others k hk hkt p).2 hp) w hw

end TailSplit

end Grammar

namespace Elimination

open Grammar (TailSplit)

/-- Removing direct recursion leaves out the nonterminal alone, or splits off a tail. -/
theorem removeDirect_cases (e : Elimination) (nt : Nonterminal) :
    e.grammar.recursiveTailsOf nt = [] ∧
        (e.removeDirect nt).grammar = e.grammar.setProductions nt (e.grammar.nonrecursiveOf nt) ∨
      TailSplit e.grammar (e.removeDirect nt).grammar nt e.grammar.freshNonterminal := by
  unfold removeDirect
  by_cases ht : e.grammar.recursiveTailsOf nt = []
  · exact Or.inl ⟨ht, by simp [ht]⟩
  · obtain ⟨t, htm⟩ := List.exists_mem_of_ne_nil _ ht
    have hd := Grammar.declared_of_mem_productionsOf (Grammar.mem_recursiveTailsOf.1 htm).1
    have hne : nt ≠ e.grammar.freshNonterminal := fun h => e.grammar.freshNonterminal_not_declared (h ▸ hd)
    right
    simp only [List.isEmpty_iff, if_neg ht]
    refine ⟨rfl, fun m => ?_, Nat.lt_succ_self _, fun p => ?_, fun p => ?_, fun m hm hmt p => ?_⟩
    · rw [Grammar.mem_declared_setProductions, Grammar.mem_declared_addFresh]
      exact ⟨fun h => h.elim (fun h => Or.inr (h ▸ hd)) id, Or.inr⟩
    · rw [Grammar.productionsOf_setProductions, if_pos rfl, mem_distinct]
    · rw [Grammar.productionsOf_setProductions, if_neg hne.symm, Grammar.productionsOf_addFresh, if_pos rfl, mem_distinct]
    · rw [Grammar.productionsOf_setProductions, if_neg hm, Grammar.productionsOf_addFresh, if_neg hmt]

/-- Leaving out the nonterminal alone keeps the words of every nonterminal. -/
theorem mem_words_setProductions_nonrecursive_iff {g : Grammar} {nt : Nonterminal} (ht : g.recursiveTailsOf nt = [])
    {m : Nonterminal} {word : List Char} :
    word ∈ (g.setProductions nt (g.nonrecursiveOf nt)).words m ↔ word ∈ g.words m := by
  constructor
  · refine Grammar.words_mono fun k p hp => ?_
    rw [Grammar.productionsOf_setProductions] at hp
    split at hp
    · rename_i hk
      exact hk ▸ (Grammar.mem_nonrecursiveOf.1 (mem_distinct.1 hp)).1
    · exact hp
  · refine Grammar.words_le fun k p hp w hw => ?_
    have hkeep : ∀ q, (k = nt → q ∈ g.nonrecursiveOf nt) → q ∈ g.productionsOf k →
        q ∈ (g.setProductions nt (g.nonrecursiveOf nt)).productionsOf k := by
      intro q hn hq
      rw [Grammar.productionsOf_setProductions]
      split
      · rename_i hk
        exact mem_distinct.2 (hn hk)
      · exact hq
    by_cases hk : k = nt
    · subst hk
      rcases Grammar.cases_of_mem_productionsOf hp with ho | rfl | ⟨t, htm, -⟩
      · exact Grammar.words_closed _ k p (hkeep p (fun _ => ho) hp) w hw
      · rwa [Production.reading_singleton] at hw
      · rw [ht] at htm
        exact nomatch htm
    · exact Grammar.words_closed _ k p (hkeep p (fun h => absurd h hk) hp) w hw

/-- Removing direct recursion keeps the start. -/
theorem start_removeDirect (e : Elimination) (nt : Nonterminal) : (e.removeDirect nt).grammar.start = e.grammar.start := by
  rcases e.removeDirect_cases nt with ⟨-, heq⟩ | hs
  · rw [heq, Grammar.start_setProductions]
  · exact hs.start

/-- Removing direct recursion keeps what is declared. -/
theorem declared_removeDirect {e : Elimination} {nt m : Nonterminal} (hm : m ∈ e.grammar.declared) :
    m ∈ (e.removeDirect nt).grammar.declared := by
  rcases e.removeDirect_cases nt with ⟨-, heq⟩ | hs
  · rw [heq]
    exact Grammar.mem_declared_setProductions.2 (Or.inr hm)
  · exact (hs.declared m).2 (Or.inr hm)

/-- Removing direct recursion keeps the words of every declared nonterminal. -/
theorem mem_words_removeDirect_iff {e : Elimination} {nt m : Nonterminal} (hm : m ∈ e.grammar.declared)
    {word : List Char} : word ∈ (e.removeDirect nt).grammar.words m ↔ word ∈ e.grammar.words m := by
  rcases e.removeDirect_cases nt with ⟨ht, heq⟩ | hs
  · rw [heq]
    exact mem_words_setProductions_nonrecursive_iff ht
  · exact ⟨hs.mem_words_of_mem (hs.ne_tail hm), hs.mem_words_of_mem_old⟩

theorem declared_take {e : Elimination} {earlier : List Nonterminal} {nt m : Nonterminal} (hm : m ∈ e.grammar.declared) :
    m ∈ (e.take earlier nt).grammar.declared :=
  declared_removeDirect (Grammar.mem_declared_setProductions.2 (Or.inr hm))

/-- Taking a nonterminal keeps the words of every declared nonterminal. -/
theorem mem_words_take_iff {e : Elimination} {earlier : List Nonterminal} {nt m : Nonterminal} (hnt : nt ∉ earlier)
    (hm : m ∈ e.grammar.declared) {word : List Char} :
    word ∈ (e.take earlier nt).grammar.words m ↔ word ∈ e.grammar.words m := by
  have hm' : m ∈ (e.grammar.substituted earlier nt).declared := Grammar.mem_declared_setProductions.2 (Or.inr hm)
  have hd : word ∈ (e.take earlier nt).grammar.words m ↔ word ∈ (e.grammar.substituted earlier nt).words m :=
    mem_words_removeDirect_iff hm'
  exact hd.trans (Grammar.mem_words_substituted_iff hnt)

/-- An elimination keeps the start. -/
theorem start_run (e : Elimination) (earlier nts : List Nonterminal) : (e.run earlier nts).grammar.start = e.grammar.start := by
  induction nts generalizing e earlier with
  | nil => rfl
  | cons nt nts ih => exact (ih (e.take earlier nt) (earlier ++ [nt])).trans (start_removeDirect _ nt)

/-- An elimination keeps what is declared and the words of every declared nonterminal. -/
theorem mem_words_run_iff {e : Elimination} {earlier nts : List Nonterminal} (hn : (earlier ++ nts).Nodup)
    {m : Nonterminal} (hm : m ∈ e.grammar.declared) :
    m ∈ (e.run earlier nts).grammar.declared ∧
      ∀ word, word ∈ (e.run earlier nts).grammar.words m ↔ word ∈ e.grammar.words m := by
  induction nts generalizing e earlier with
  | nil => exact ⟨hm, fun _ => Iff.rfl⟩
  | cons nt nts ih =>
    have hnt : nt ∉ earlier := fun h => (List.nodup_append.1 hn).2.2 nt h nt List.mem_cons_self rfl
    have hn' : (earlier ++ [nt] ++ nts).Nodup := by simpa using hn
    have hm' : m ∈ (e.take earlier nt).grammar.declared := declared_take hm
    obtain ⟨hd, hw⟩ := ih hn' hm'
    exact ⟨hd, fun word => (hw word).trans (mem_words_take_iff hnt hm)⟩

end Elimination

end TopDown
