import TopDown.Factoring
import TopDown.Proofs.LeftRecursion

/-!
# Factoring keeps the words

Taking one nonterminal exchanges some of its productions for a stem and a fresh nonterminal that has the remainders. Every
remainder put back after its stem is one of the old productions, and every old production is found this way or was left alone,
so no nonterminal gains or loses a word. The fresh nonterminal can lead where its stem derives the empty word, but what leads in
it then also led before.

Main statements: `mem_words_factored_iff`, `WellFormed.factored` and `leftRecursive_factored`.
-/

namespace TopDown

open Production (reading readings)

/-! ## The parts of a nonterminal's productions -/

namespace Production

/-- What two productions have in common at their beginning is at the beginning of the first. -/
theorem commonStem_prefix_left (p q : Production) : commonStem p q <+: p := by
  induction p generalizing q with
  | nil => exact List.nil_prefix
  | cons s p ih =>
    cases q with
    | nil => exact List.nil_prefix
    | cons t q =>
      rw [commonStem]
      split
      · exact (List.prefix_cons_inj s).2 (ih q)
      · exact List.nil_prefix

/-- What two productions have in common at their beginning is at the beginning of the second. -/
theorem commonStem_prefix_right (p q : Production) : commonStem p q <+: q := by
  induction p generalizing q with
  | nil => exact List.nil_prefix
  | cons s p ih =>
    cases q with
    | nil => exact List.nil_prefix
    | cons t q =>
      rw [commonStem]
      split
      · rename_i hst
        exact hst ▸ (List.prefix_cons_inj s).2 (ih q)
      · exact List.nil_prefix

/-- The common stem of several productions is at the beginning of each. -/
theorem foldl_commonStem_prefix (first : Production) (others : List Production) :
    ∀ p ∈ first :: others, others.foldl commonStem first <+: p := by
  induction others generalizing first with
  | nil =>
    intro p hp
    rw [List.mem_singleton.1 hp]
    exact List.prefix_rfl
  | cons second others ih =>
    have hstem := ih (commonStem first second)
    have hboth := hstem (commonStem first second) List.mem_cons_self
    intro p hp
    rcases List.mem_cons.1 hp with rfl | hp
    · exact hboth.trans (commonStem_prefix_left p second)
    · rcases List.mem_cons.1 hp with rfl | hp
      · exact hboth.trans (commonStem_prefix_right first p)
      · exact hstem p (List.mem_cons_of_mem _ hp)

end Production

namespace Part

theorem mem_group {ps : List Production} {p q : Production} : q ∈ group ps p ↔ q ∈ ps ∧ q.head? = p.head? := by
  simp [group]

/-- A group that is put together: its common stem, and what is left of each member. -/
def together (first : Production) (others : List Production) : Part :=
  let stem := others.foldl Production.commonStem first
  .shared stem ((first :: others).map (List.drop stem.length))

/-- The stem of a group that is put together, with what is left of a member, is the member. -/
theorem exists_remainder {first p : Production} {others : List Production} (hp : p ∈ first :: others) :
    ∃ stem remainders, together first others = .shared stem remainders ∧ ∃ r ∈ remainders, p = stem ++ r := by
  obtain ⟨r, hr⟩ := Production.foldl_commonStem_prefix first others p hp
  have hdrop : p.drop (others.foldl Production.commonStem first).length = r := by rw [← hr, List.drop_left]
  exact ⟨_, _, rfl, r, List.mem_map.2 ⟨p, hp, hdrop⟩, hr.symm⟩

/-- A production is left alone, or its group has several members and stands where the first of them stood. -/
theorem of?_cases (ps : List Production) (p : Production) :
    of? ps p = some (.alone p) ∨ ∃ first second others, p ≠ [] ∧ group ps p = first :: second :: others ∧
      of? ps p = if p = first then some (together first (second :: others)) else none := by
  unfold of?
  cases p with
  | nil => exact Or.inl rfl
  | cons s p =>
    match hg : group ps (s :: p) with
    | [] => exact Or.inl rfl
    | [only] => exact Or.inl rfl
    | first :: second :: others => exact Or.inr ⟨first, second, others, List.cons_ne_nil s p, rfl, rfl⟩

/-- What is left alone was a production. -/
theorem mem_of_alone_mem {ps : List Production} {p : Production} (h : .alone p ∈ ofProductions ps) : p ∈ ps := by
  obtain ⟨q, hq, hof⟩ := List.mem_filterMap.1 h
  rcases of?_cases ps q with ha | ⟨first, second, others, -, -, hs⟩
  · rw [ha] at hof
    cases hof
    exact hq
  · rw [hs] at hof
    split at hof
    · cases hof
    · cases hof

/-- A shared stem has remainders, and with each of them it was a production. -/
theorem mem_of_shared_mem {ps : List Production} {stem : Production} {remainders : List Production}
    (h : .shared stem remainders ∈ ofProductions ps) : remainders ≠ [] ∧ ∀ r ∈ remainders, stem ++ r ∈ ps := by
  obtain ⟨q, -, hof⟩ := List.mem_filterMap.1 h
  rcases of?_cases ps q with ha | ⟨first, second, others, -, hg, hs⟩
  · rw [ha] at hof
    cases hof
  · rw [hs] at hof
    split at hof
    · cases hof
      refine ⟨List.cons_ne_nil _ _, fun r hr => ?_⟩
      obtain ⟨p, hp, rfl⟩ := List.mem_map.1 hr
      obtain ⟨t, ht⟩ := Production.foldl_commonStem_prefix first (second :: others) p hp
      have hps : p ∈ ps := (mem_group.1 (hg ▸ hp)).1
      rw [← ht, List.drop_left, ht]
      exact hps
    · cases hof

/-- Every production is left alone, or it is a shared stem with one of its remainders. -/
theorem alone_mem_or_shared_mem {ps : List Production} {p : Production} (hp : p ∈ ps) :
    .alone p ∈ ofProductions ps ∨
      ∃ stem remainders, .shared stem remainders ∈ ofProductions ps ∧ ∃ r ∈ remainders, p = stem ++ r := by
  rcases of?_cases ps p with ha | ⟨first, second, others, hne, hg, -⟩
  · exact Or.inl (List.mem_filterMap.2 ⟨p, hp, ha⟩)
  · right
    have hfirst := mem_group.1 (hg ▸ List.mem_cons_self : first ∈ group ps p)
    have hgfirst : group ps first = first :: second :: others := by rw [← hg, group, group, hfirst.2]
    obtain ⟨stem, remainders, htogether, hr⟩ := exists_remainder (hg ▸ mem_group.2 ⟨hp, rfl⟩ : p ∈ first :: second :: others)
    refine ⟨stem, remainders, List.mem_filterMap.2 ⟨first, hfirst.1, ?_⟩, hr⟩
    rcases of?_cases ps first with ha | ⟨first', second', others', -, hg', hs⟩
    · cases first with
      | nil => exact absurd (List.head?_eq_none_iff.1 hfirst.2.symm) hne
      | cons s first =>
        rw [of?, if_neg (by simp), hgfirst] at ha
        simp at ha
    · rw [hgfirst] at hg'
      cases hg'
      rw [hs, if_pos rfl, htogether]

end Part

/-! ## Placing the parts -/

/-- What a grammar became when the parts of a nonterminal's productions were placed: the fresh nonterminals have the remainders
and nothing else is new. `ps` are the productions that the parts became. -/
structure Placed (g h : Grammar) (parts : List Part) (ps : List Production) : Prop where
  start : h.start = g.start
  bound : g.maxNonterminal ≤ h.maxNonterminal
  declared : ∀ m ∈ g.declared, m ∈ h.declared
  kept : ∀ m ≤ g.maxNonterminal, h.productionsOf m = g.productionsOf m
  alone : ∀ p, .alone p ∈ parts → p ∈ ps
  shared : ∀ stem remainders, .shared stem remainders ∈ parts → ∃ fresh, g.maxNonterminal < fresh ∧
    stem ++ [.nonterminal fresh] ∈ ps ∧ h.productionsOf fresh = distinct remainders
  placed : ∀ p ∈ ps, .alone p ∈ parts ∨ ∃ stem remainders fresh, .shared stem remainders ∈ parts ∧
    p = stem ++ [.nonterminal fresh] ∧ g.maxNonterminal < fresh ∧ h.productionsOf fresh = distinct remainders
  fresh : ∀ m, g.maxNonterminal < m → ∀ r ∈ h.productionsOf m, ∃ stem remainders,
    .shared stem remainders ∈ parts ∧ r ∈ remainders

namespace Placed

/-- When there are no parts, nothing happens. -/
theorem nil (g : Grammar) : Placed g g [] [] where
  start := rfl
  bound := Nat.le_refl _
  declared := fun _ hm => hm
  kept := fun _ _ => rfl
  alone := fun _ h => nomatch h
  shared := fun _ _ h => nomatch h
  placed := fun _ h => nomatch h
  fresh := fun _ hm _ hr =>
    absurd (Grammar.le_maxNonterminal_of_declared (Grammar.declared_of_mem_productionsOf hr)) (Nat.not_le_of_lt hm)

variable {g h : Grammar} {parts : List Part} {ps : List Production}

/-- A production that is left alone stays. -/
theorem cons_alone (hp : Placed g h parts ps) (p : Production) : Placed g h (.alone p :: parts) (p :: ps) where
  start := hp.start
  bound := hp.bound
  declared := hp.declared
  kept := hp.kept
  alone := by
    intro q hq
    rcases List.mem_cons.1 hq with hq | hq
    · cases hq
      exact List.mem_cons_self
    · exact List.mem_cons_of_mem p (hp.alone q hq)
  shared := by
    intro stem remainders hs
    obtain ⟨fresh, hb, hmem, hf⟩ := hp.shared stem remainders ((List.mem_cons.1 hs).resolve_left nofun)
    exact ⟨fresh, hb, List.mem_cons_of_mem p hmem, hf⟩
  placed := by
    intro q hq
    rcases List.mem_cons.1 hq with rfl | hq
    · exact Or.inl List.mem_cons_self
    · rcases hp.placed q hq with ha | ⟨stem, remainders, fresh, hs, h⟩
      · exact Or.inl (List.mem_cons_of_mem _ ha)
      · exact Or.inr ⟨stem, remainders, fresh, List.mem_cons_of_mem _ hs, h⟩
  fresh := by
    intro m hm r hr
    obtain ⟨stem, remainders, hs, hr⟩ := hp.fresh m hm r hr
    exact ⟨stem, remainders, List.mem_cons_of_mem _ hs, hr⟩

/-- A fresh nonterminal is introduced for a shared stem, and then the other parts are placed. -/
theorem cons_shared {origin : Nonterminal} {stem : Production} {remainders : List Production}
    (hp : Placed (g.addFresh origin remainders) h parts ps) :
    Placed g h (.shared stem remainders :: parts) ((stem ++ [.nonterminal g.freshNonterminal]) :: ps) := by
  have hlt : g.maxNonterminal < g.freshNonterminal := Nat.lt_succ_self _
  have hle := Grammar.freshNonterminal_le_maxNonterminal_addFresh g origin remainders
  have hbound := Nat.le_trans (Nat.le_of_lt hlt) hle
  have hnew : h.productionsOf g.freshNonterminal = distinct remainders := by
    rw [hp.kept _ hle, Grammar.productionsOf_addFresh, if_pos rfl]
  refine ⟨hp.start, Nat.le_trans hbound hp.bound, fun m hm => ?_, fun m hm => ?_, fun p ha => ?_, fun stem' rs hs => ?_,
    fun p hmem => ?_, fun m hm r hr => ?_⟩
  · exact hp.declared m (Grammar.mem_declared_addFresh.2 (Or.inr hm))
  · rw [hp.kept m (Nat.le_trans hm hbound), Grammar.productionsOf_addFresh,
      if_neg (Nat.ne_of_lt (Nat.lt_of_le_of_lt hm hlt))]
  · exact List.mem_cons_of_mem _ (hp.alone p ((List.mem_cons.1 ha).resolve_left nofun))
  · rcases List.mem_cons.1 hs with heq | hs
    · cases heq
      exact ⟨g.freshNonterminal, hlt, List.mem_cons_self, hnew⟩
    · obtain ⟨fresh, hb, hmem, hf⟩ := hp.shared stem' rs hs
      exact ⟨fresh, Nat.lt_of_le_of_lt hbound hb, List.mem_cons_of_mem _ hmem, hf⟩
  · rcases List.mem_cons.1 hmem with rfl | hmem
    · exact Or.inr ⟨stem, remainders, g.freshNonterminal, List.mem_cons_self, rfl, hlt, hnew⟩
    · rcases hp.placed p hmem with ha | ⟨stem', rs, fresh, hs, rfl, hb, hf⟩
      · exact Or.inl (List.mem_cons_of_mem _ ha)
      · exact Or.inr ⟨stem', rs, fresh, List.mem_cons_of_mem _ hs, rfl, Nat.lt_of_le_of_lt hbound hb, hf⟩
  · by_cases hmax : (g.addFresh origin remainders).maxNonterminal < m
    · obtain ⟨stem', rs, hs, hr⟩ := hp.fresh m hmax r hr
      exact ⟨stem', rs, List.mem_cons_of_mem _ hs, hr⟩
    · rw [hp.kept m (Nat.le_of_not_lt hmax), Grammar.productionsOf_addFresh] at hr
      split at hr
      · exact ⟨stem, remainders, List.mem_cons_self, mem_distinct.1 hr⟩
      · have hle := Grammar.le_maxNonterminal_of_declared (Grammar.declared_of_mem_productionsOf hr)
        exact absurd hle (Nat.not_le_of_lt hm)

end Placed

/-- Placing parts does what it should. -/
theorem Factoring.placed_place (nt : Nonterminal) (parts : List Part) (s : Factoring) :
    Placed s.grammar (place nt parts s).1.grammar parts (place nt parts s).2 := by
  induction parts generalizing s with
  | nil => exact Placed.nil s.grammar
  | cons part parts ih =>
    cases part with
    | alone p => exact (ih s).cons_alone p
    | shared stem remainders => exact (ih (s.introduce nt remainders)).cons_shared

/-! ## One nonterminal -/

namespace Grammar

/-- A grammar in which productions of one nonterminal became a stem followed by a fresh nonterminal. -/
structure StemSplit (g h : Grammar) (nt : Nonterminal) : Prop where
  start : h.start = g.start
  declared : ∀ m ∈ g.declared, m ∈ h.declared
  others : ∀ m ≤ g.maxNonterminal, m ≠ nt → h.productionsOf m = g.productionsOf m
  sound : ∀ p ∈ h.productionsOf nt, p ∈ g.productionsOf nt ∨ ∃ stem fresh, p = stem ++ [.nonterminal fresh] ∧
    g.maxNonterminal < fresh ∧ (∃ r, r ∈ h.productionsOf fresh) ∧
      ∀ r ∈ h.productionsOf fresh, stem ++ r ∈ g.productionsOf nt
  covered : ∀ p ∈ g.productionsOf nt, p ∈ h.productionsOf nt ∨ ∃ stem fresh r, p = stem ++ r ∧
    stem ++ [.nonterminal fresh] ∈ h.productionsOf nt ∧ r ∈ h.productionsOf fresh
  fresh : ∀ m, g.maxNonterminal < m → ∀ r ∈ h.productionsOf m, ∃ stem, stem ++ r ∈ g.productionsOf nt

/-- When the parts of a nonterminal's productions are placed and the result set, stems are split off. -/
theorem stemSplit_of_placed {g h : Grammar} {nt : Nonterminal} {ps : List Production} (hnt : nt ∈ g.declared)
    (hp : Placed g h (Part.ofProductions (g.productionsOf nt)) ps) : StemSplit g (h.setProductions nt ps) nt := by
  have hle := le_maxNonterminal_of_declared hnt
  have hset : ∀ p, p ∈ (h.setProductions nt ps).productionsOf nt ↔ p ∈ ps := by
    intro p
    rw [productionsOf_setProductions, if_pos rfl, mem_distinct]
  have hother : ∀ m, m ≠ nt → (h.setProductions nt ps).productionsOf m = h.productionsOf m := by
    intro m hm
    rw [productionsOf_setProductions, if_neg hm]
  have hfresh : ∀ m, g.maxNonterminal < m → m ≠ nt := fun m hm => (Nat.ne_of_lt (Nat.lt_of_le_of_lt hle hm)).symm
  refine ⟨hp.start, fun m hm => ?_, fun m hm hne => ?_, fun p hmem => ?_, fun p hmem => ?_, fun m hm r hr => ?_⟩
  · exact mem_declared_setProductions.2 (Or.inr (hp.declared m hm))
  · rw [hother m hne, hp.kept m hm]
  · rcases hp.placed p ((hset p).1 hmem) with ha | ⟨stem, remainders, fresh, hs, rfl, hb, hf⟩
    · exact Or.inl (Part.mem_of_alone_mem ha)
    · obtain ⟨hne, hall⟩ := Part.mem_of_shared_mem hs
      obtain ⟨r, hr⟩ := List.exists_mem_of_ne_nil remainders hne
      refine Or.inr ⟨stem, fresh, rfl, hb, ⟨r, ?_⟩, fun r hr => hall r ?_⟩
      · rwa [hother fresh (hfresh fresh hb), hf, mem_distinct]
      · rwa [hother fresh (hfresh fresh hb), hf, mem_distinct] at hr
  · rcases Part.alone_mem_or_shared_mem hmem with ha | ⟨stem, remainders, hs, r, hr, rfl⟩
    · exact Or.inl ((hset p).2 (hp.alone p ha))
    · obtain ⟨fresh, hb, hps, hf⟩ := hp.shared stem remainders hs
      refine Or.inr ⟨stem, fresh, r, rfl, (hset _).2 hps, ?_⟩
      rwa [hother fresh (hfresh fresh hb), hf, mem_distinct]
  · rw [hother m (hfresh m hm)] at hr
    obtain ⟨stem, remainders, hs, hr⟩ := hp.fresh m hm r hr
    exact ⟨stem, (Part.mem_of_shared_mem hs).2 r hr⟩

/-- An undeclared nonterminal has no parts; it is declared and nothing else happens. -/
theorem stemSplit_of_not_declared {g : Grammar} {nt : Nonterminal} (hnt : nt ∉ g.declared) :
    StemSplit g (g.setProductions nt []) nt := by
  have hnil := productionsOf_of_not_declared hnt
  have hset : ∀ m, (g.setProductions nt []).productionsOf m = g.productionsOf m := by
    intro m
    rw [productionsOf_setProductions]
    split
    · rename_i hm
      rw [hm, hnil]
      rfl
    · rfl
  refine ⟨rfl, fun m hm => mem_declared_setProductions.2 (Or.inr hm), fun m _ _ => hset m, fun p hp => ?_, fun p hp => ?_,
    fun m hm r hr => ?_⟩
  · exact Or.inl (hset nt ▸ hp)
  · exact Or.inl ((hset nt).symm ▸ hp)
  · rw [hset m] at hr
    exact absurd (le_maxNonterminal_of_declared (declared_of_mem_productionsOf hr)) (Nat.not_le_of_lt hm)

end Grammar

/-- Taking a nonterminal splits off stems. -/
theorem Factoring.stemSplit_take (s : Factoring) (nt : Nonterminal) :
    Grammar.StemSplit s.grammar (s.take nt).grammar nt := by
  by_cases hnt : nt ∈ s.grammar.declared
  · exact Grammar.stemSplit_of_placed hnt (placed_place nt _ s)
  · have htake : (s.take nt).grammar = s.grammar.setProductions nt [] := by
      rw [take, Grammar.productionsOf_of_not_declared hnt]
      rfl
    rw [htake]
    exact Grammar.stemSplit_of_not_declared hnt
/-! ## What splitting stems keeps -/

namespace Grammar.StemSplit

variable {g h : Grammar} {nt : Nonterminal}

/-- The productions of a fresh nonterminal mention nothing fresh, as they are ends of old productions. -/
theorem le_of_mention_fresh (hs : StemSplit g h nt) {k m : Nonterminal} (hk : g.maxNonterminal < k) {r : Production}
    (hr : r ∈ h.productionsOf k) (hm : .nonterminal m ∈ r) : m ≤ g.maxNonterminal := by
  obtain ⟨stem, hp⟩ := hs.fresh k hk r hr
  exact le_maxNonterminal_of_mention hp (List.mem_append_right stem hm)

/-- What nonterminals are to stand for after the split: what they did, and a fresh one for the words of its remainders. -/
def stemWords (g h : Grammar) (k : Nonterminal) : Words :=
  if k ≤ g.maxNonterminal then g.words k else readings g.words (h.productionsOf k)

/-- Nonterminals that were in use stand for what they generated. -/
theorem stemWords_of_le {k : Nonterminal} (hk : k ≤ g.maxNonterminal) : stemWords g h k = g.words k := if_pos hk

/-- Fresh nonterminals stand for the words of their productions. -/
theorem stemWords_of_lt {k : Nonterminal} (hk : g.maxNonterminal < k) :
    stemWords g h k = readings g.words (h.productionsOf k) :=
  if_neg (Nat.not_le_of_lt hk)

/-- Symbols that were in use stand for the same as before. -/
theorem reading_stemWords {p : Production} (hp : ∀ m, .nonterminal m ∈ p → m ≤ g.maxNonterminal) :
    reading (stemWords g h) p = reading g.words p :=
  Production.reading_congr fun m hm => stemWords_of_le (hp m hm)

/-- The productions of the nonterminal that was split stand for words that it generated. -/
theorem closed_split (hs : StemSplit g h nt) {p : Production} (hp : p ∈ h.productionsOf nt) {word : List Char}
    (hw : word ∈ reading (stemWords g h) p) : word ∈ g.words nt := by
  rcases hs.sound p hp with hold | ⟨stem, fresh, rfl, hf, ⟨r, hr⟩, hall⟩
  · rw [reading_stemWords fun m hm => le_maxNonterminal_of_mention hold hm] at hw
    exact words_closed g nt p hold word hw
  · have hstem : reading (stemWords g h) stem = reading g.words stem :=
      reading_stemWords fun m hm => le_maxNonterminal_of_mention (hall r hr) (List.mem_append_left r hm)
    obtain ⟨u, hu, v, hv, rfl⟩ := Production.mem_reading_append.1 hw
    rw [hstem] at hu
    rw [Production.reading_singleton, stemWords_of_lt hf] at hv
    obtain ⟨r, hr, hv⟩ := hv
    exact words_closed g nt _ (hall r hr) _ (Production.mem_reading_append.2 ⟨u, hu, v, hv, rfl⟩)

/-- What nonterminals are to stand for is closed under the productions after the split. -/
theorem closed_stemWords (hs : StemSplit g h nt) : h.Closed (stemWords g h) := by
  intro k p hp word hw
  by_cases hk : k ≤ g.maxNonterminal
  · rw [stemWords_of_le hk]
    by_cases hkn : k = nt
    · subst hkn
      exact hs.closed_split hp hw
    · rw [hs.others k hk hkn] at hp
      rw [reading_stemWords fun m hm => le_maxNonterminal_of_mention hp hm] at hw
      exact words_closed g k p hp word hw
  · have hk := Nat.lt_of_not_le hk
    rw [reading_stemWords fun m hm => hs.le_of_mention_fresh hk hp hm] at hw
    rw [stemWords_of_lt hk]
    exact ⟨p, hp, hw⟩

/-- No nonterminal that was in use generates more than before. -/
theorem mem_words_of_mem (hs : StemSplit g h nt) {m : Nonterminal} (hm : m ≤ g.maxNonterminal) {word : List Char}
    (hw : word ∈ h.words m) : word ∈ g.words m := by
  have hword := words_le hs.closed_stemWords hw
  rwa [stemWords_of_le hm] at hword

/-- Every nonterminal generates what it did. -/
theorem mem_words_of_mem_old (hs : StemSplit g h nt) {m : Nonterminal} {word : List Char} (hw : word ∈ g.words m) :
    word ∈ h.words m := by
  refine words_le (fun k p hp w hw => ?_) hw
  by_cases hkn : k = nt
  · subst hkn
    rcases hs.covered p hp with hmem | ⟨stem, fresh, r, rfl, hmem, hr⟩
    · exact words_closed h k p hmem w hw
    · obtain ⟨u, hu, v, hv, rfl⟩ := Production.mem_reading_append.1 hw
      refine words_closed h k _ hmem _ (Production.mem_reading_append.2 ⟨u, hu, v, ?_, rfl⟩)
      rw [Production.reading_singleton]
      exact words_closed h fresh r hr v hv
  · rw [← hs.others k (le_maxNonterminal_of_declared (declared_of_mem_productionsOf hp)) hkn] at hp
    exact words_closed h k p hp w hw

/-- Splitting stems keeps the words of every nonterminal that was in use. -/
theorem mem_words_iff (hs : StemSplit g h nt) {m : Nonterminal} (hm : m ≤ g.maxNonterminal) {word : List Char} :
    word ∈ h.words m ↔ word ∈ g.words m :=
  ⟨hs.mem_words_of_mem hm, hs.mem_words_of_mem_old⟩

theorem mem_reading_iff (hs : StemSplit g h nt) {p : Production} (hp : ∀ m, .nonterminal m ∈ p → m ≤ g.maxNonterminal)
    {word : List Char} : word ∈ reading h.words p ↔ word ∈ reading g.words p := by
  rw [Production.reading_congr fun m hm => Language.ext fun _ => hs.mem_words_iff (hp m hm)]

/-- Splitting stems keeps a grammar well-formed. -/
theorem wellFormed (hs : StemSplit g h nt) (hg : g.WellFormed) : h.WellFormed := by
  refine ⟨hs.start ▸ hs.declared _ hg.start, fun k p hp m hm => ?_⟩
  by_cases hk : k ≤ g.maxNonterminal
  · by_cases hkn : k = nt
    · subst hkn
      rcases hs.sound p hp with hold | ⟨stem, fresh, rfl, -, ⟨r, hr⟩, hall⟩
      · exact hs.declared m (hg.mention k p hold m hm)
      · rcases List.mem_append.1 hm with hm | hm
        · exact hs.declared m (hg.mention k _ (hall r hr) m (List.mem_append_left r hm))
        · cases List.mem_singleton.1 hm
          exact declared_of_mem_productionsOf hr
    · rw [hs.others k hk hkn] at hp
      exact hs.declared m (hg.mention k p hp m hm)
  · obtain ⟨stem, hold⟩ := hs.fresh k (Nat.lt_of_not_le hk) p hp
    exact hs.declared m (hg.mention nt _ hold m (List.mem_append_right stem hm))

/-! ### Leading nonterminals -/

/-- What leads in a nonterminal that was not split led in it before. -/
theorem leads_of_ne (hs : StemSplit g h nt) {lead k : Nonterminal} (hk : k ≤ g.maxNonterminal) (hkn : k ≠ nt)
    (hl : h.Leads lead k) : g.Leads lead k := by
  obtain ⟨before, after, hp, hb⟩ := leads_iff.1 hl
  rw [hs.others k hk hkn] at hp
  refine leads_iff.2 ⟨before, after, hp, (hs.mem_reading_iff fun m hm => ?_).1 hb⟩
  exact le_maxNonterminal_of_mention hp (List.mem_append_left _ hm)

/-- What leads in a fresh nonterminal stands behind symbols that derived the empty word before. -/
theorem leads_fresh (hs : StemSplit g h nt) {lead fresh : Nonterminal} (hf : g.maxNonterminal < fresh)
    (hl : h.Leads lead fresh) : ∃ before after, before ++ .nonterminal lead :: after ∈ h.productionsOf fresh ∧
      [] ∈ reading g.words before := by
  obtain ⟨before, after, hr, hb⟩ := leads_iff.1 hl
  refine ⟨before, after, hr, (hs.mem_reading_iff fun m hm => ?_).1 hb⟩
  exact hs.le_of_mention_fresh hf hr (List.mem_append_left _ hm)

/-- What leads in the nonterminal that was split led in it before, or is fresh and itself led by what led in it before. -/
theorem leads_split (hs : StemSplit g h nt) {lead : Nonterminal} (hl : h.Leads lead nt) :
    g.Leads lead nt ∨ g.maxNonterminal < lead ∧ ∀ next, h.Leads next lead → g.Leads next nt := by
  obtain ⟨before, after, hp, hb⟩ := leads_iff.1 hl
  rcases hs.sound _ hp with hold | ⟨stem, fresh, heq, hf, ⟨r, hr⟩, hall⟩
  · refine Or.inl (leads_iff.2 ⟨before, after, hold, (hs.mem_reading_iff fun m hm => ?_).1 hb⟩)
    exact le_maxNonterminal_of_mention hold (List.mem_append_left _ hm)
  · have hstem : ∀ m, .nonterminal m ∈ stem → m ≤ g.maxNonterminal := fun m hm =>
      le_maxNonterminal_of_mention (hall r hr) (List.mem_append_left r hm)
    rcases List.eq_nil_or_concat' after with rfl | ⟨after, last, rfl⟩
    · obtain ⟨rfl, hlast⟩ := List.append_inj' heq rfl
      cases hlast
      refine Or.inr ⟨hf, fun next hn => ?_⟩
      obtain ⟨before', after', hr', hb'⟩ := hs.leads_fresh hf hn
      have hbefore : [] ∈ reading g.words (before ++ before') :=
        Production.mem_reading_append.2 ⟨[], (hs.mem_reading_iff hstem).1 hb, [], hb', rfl⟩
      refine leads_iff.2 ⟨before ++ before', after', ?_, hbefore⟩
      rw [List.append_assoc]
      exact hall _ hr'
    · rw [← List.cons_append, ← List.append_assoc] at heq
      obtain ⟨rfl, -⟩ := List.append_inj' heq rfl
      have hold := hall r hr
      rw [List.append_assoc] at hold
      refine Or.inl (leads_iff.2 ⟨before, after ++ r, hold, (hs.mem_reading_iff fun m hm => ?_).1 hb⟩)
      exact hstem m (List.mem_append_left _ hm)

/-- What led in a nonterminal still leads in it, directly or through a fresh one. -/
theorem transGen_leads (hs : StemSplit g h nt) {lead k : Nonterminal} (hl : g.Leads lead k) :
    Relation.TransGen h.Leads lead k := by
  obtain ⟨before, after, hp, hb⟩ := leads_iff.1 hl
  have hnull : ∀ p, [] ∈ reading g.words p → [] ∈ reading h.words p := fun p =>
    Production.reading_mono (fun m _ w hw => hs.mem_words_of_mem_old hw) []
  by_cases hkn : k = nt
  · subst hkn
    rcases hs.covered _ hp with hmem | ⟨stem, fresh, r, heq, hmem, hr⟩
    · exact .single (leads_iff.2 ⟨before, after, hmem, hnull before hb⟩)
    · rcases List.append_eq_append_iff.1 heq with ⟨inner, rfl, hrest⟩ | ⟨inner, rfl, rfl⟩
      · cases inner with
        | nil =>
          rw [List.nil_append] at hrest
          rw [List.append_nil] at hmem
          have hin : h.Leads lead fresh := leads_iff.2 ⟨[], after, hrest ▸ hr, Production.mem_reading_nil.2 rfl⟩
          exact .tail (.single hin) (leads_iff.2 ⟨before, [], hmem, hnull before hb⟩)
        | cons s inner =>
          cases hrest
          rw [List.append_assoc, List.cons_append] at hmem
          exact .single (leads_iff.2 ⟨before, inner ++ [.nonterminal fresh], hmem, hnull before hb⟩)
      · obtain ⟨u, hu, v, hv, huv⟩ := Production.mem_reading_append.1 hb
        obtain ⟨rfl, rfl⟩ := List.append_eq_nil_iff.1 huv
        have hin : h.Leads lead fresh := leads_iff.2 ⟨inner, after, hr, hnull inner hv⟩
        exact .tail (.single hin) (leads_iff.2 ⟨stem, [], hmem, hnull stem hu⟩)
  · rw [← hs.others k (le_maxNonterminal_of_declared (declared_of_mem_productionsOf hp)) hkn] at hp
    exact .single (leads_iff.2 ⟨before, after, hp, hnull before hb⟩)

/-- Splitting stems makes no left recursion and removes none. -/
theorem leftRecursive_eq (hs : StemSplit g h nt) : h.leftRecursive = g.leftRecursive := by
  rw [Bool.eq_iff_iff, ← not_iff_not, Bool.not_eq_true, Bool.not_eq_true, leftRecursive_eq_false_iff,
    leftRecursive_eq_false_iff]
  constructor
  · intro hh k
    exact Subrelation.accessible hs.transGen_leads (hh k).transGen
  · intro hg
    have hold : ∀ k, k ≤ g.maxNonterminal → Acc h.Leads k := by
      intro k
      induction hg k with
      | intro k _ ih =>
        have hnext : ∀ lead, g.Leads lead k → Acc h.Leads lead := by
          intro lead hl
          obtain ⟨p, hp, hm⟩ := hl.exists_mention
          exact ih lead hl (le_maxNonterminal_of_mention hp hm)
        refine fun hk => Acc.intro k fun lead hl => ?_
        by_cases hkn : k = nt
        · subst hkn
          rcases hs.leads_split hl with hl | ⟨-, hthrough⟩
          · exact hnext lead hl
          · exact Acc.intro lead fun next hn => hnext next (hthrough next hn)
        · exact hnext lead (hs.leads_of_ne hk hkn hl)
    intro k
    by_cases hk : k ≤ g.maxNonterminal
    · exact hold k hk
    · refine Acc.intro k fun lead hl => hold lead ?_
      obtain ⟨r, hr, hm⟩ := hl.exists_mention
      exact hs.le_of_mention_fresh (Nat.lt_of_not_le hk) hr hm

end Grammar.StemSplit

/-! ## All nonterminals -/

/-- A factoring keeps the start, what is declared, the words of every declared nonterminal, well-formedness, and left recursion
or its absence. -/
theorem Factoring.run_kept (fuel : Nat) (s : Factoring) :
    (run fuel s).grammar.start = s.grammar.start ∧
      (∀ m ∈ s.grammar.declared, m ∈ (run fuel s).grammar.declared ∧
        ∀ word, word ∈ (run fuel s).grammar.words m ↔ word ∈ s.grammar.words m) ∧
      (s.grammar.WellFormed → (run fuel s).grammar.WellFormed) ∧
      (run fuel s).grammar.leftRecursive = s.grammar.leftRecursive := by
  induction fuel generalizing s with
  | zero => exact ⟨rfl, fun m hm => ⟨hm, fun _ => Iff.rfl⟩, id, rfl⟩
  | succ fuel ih =>
    cases hpending : s.pending with
    | nil =>
      rw [run, hpending]
      exact ⟨rfl, fun m hm => ⟨hm, fun _ => Iff.rfl⟩, id, rfl⟩
    | cons nt rest =>
      have hs := stemSplit_take { s with pending := rest } nt
      obtain ⟨hstart, hwords, hwf, hleft⟩ := ih (take { s with pending := rest } nt)
      rw [run, hpending]
      refine ⟨hstart.trans hs.start, fun m hm => ?_, fun hg => hwf (hs.wellFormed hg), hleft.trans hs.leftRecursive_eq⟩
      obtain ⟨hd, hw⟩ := hwords m (hs.declared m hm)
      exact ⟨hd, fun word => (hw word).trans (hs.mem_words_iff (Grammar.le_maxNonterminal_of_declared hm))⟩

namespace Grammar

@[simp] theorem start_factored (g : Grammar) : g.factored.start = g.start := (Factoring.run_kept _ _).1

theorem mem_words_factored_iff {g : Grammar} {nt : Nonterminal} (h : nt ∈ g.declared) {word : List Char} :
    word ∈ g.factored.words nt ↔ word ∈ g.words nt :=
  ((Factoring.run_kept g.extent ⟨g, g.declared, 0⟩).2.1 nt h).2 word

/-- Factoring keeps a grammar well-formed. -/
theorem WellFormed.factored {g : Grammar} (hg : g.WellFormed) : g.factored.WellFormed :=
  (Factoring.run_kept g.extent ⟨g, g.declared, 0⟩).2.2.1 hg

/-- Factoring makes no left recursion and removes none. -/
theorem leftRecursive_factored (g : Grammar) : g.factored.leftRecursive = g.leftRecursive :=
  (Factoring.run_kept g.extent ⟨g, g.declared, 0⟩).2.2.2

end Grammar

end TopDown
