import Mathlib.Algebra.BigOperators.Group.List.Basic
import Mathlib.Computability.Language
import Mathlib.Order.CompletePartialOrder
import TopDown.Grammar.Derivation

/-!
# Words

The language of a grammar as the least solution of equations between sets of words. When it is known what each nonterminal
stands for, a list of symbols stands for a product: a character for itself, a nonterminal for any of its words. What a grammar
generates is the least assignment of words to nonterminals in which every production stands for words of its nonterminal.

So a transformation is judged without looking into derivations: if the languages of one grammar make an assignment that is
closed under the productions of another, the other generates no more.

Main statements: `mem_words_iff` (the equations), `words_le` (the least solution) and `derives_ofWord_iff` (for any list of
symbols).
-/

namespace TopDown

/-- A set of words. -/
abbrev Words := Language Char

/-- The words that a symbol stands for, when it is known what each nonterminal stands for. -/
def Symbol.reading (L : Nonterminal → Words) : Symbol → Words
  | .nonterminal nt => L nt
  | .terminal c => {[c]}

namespace Production

/-- The words that a list of symbols stands for. -/
def reading (L : Nonterminal → Words) (p : Production) : Words := (p.map (Symbol.reading L)).prod

@[simp] theorem mem_reading_nil {L : Nonterminal → Words} {word : List Char} : word ∈ reading L [] ↔ word = [] :=
  Language.mem_one word

/-- One list after another stands for the words of the one followed by the words of the other. -/
theorem reading_append (L : Nonterminal → Words) (p q : Production) : reading L (p ++ q) = reading L p * reading L q := by
  rw [reading, List.map_append, List.prod_append, reading, reading]

/-- A symbol and then a list stands for the words of the one followed by the words of the other. -/
theorem reading_cons (L : Nonterminal → Words) (s : Symbol) (p : Production) :
    reading L (s :: p) = s.reading L * reading L p := by
  rw [reading, List.map_cons, List.prod_cons, reading]

@[simp] theorem reading_singleton (L : Nonterminal → Words) (nt : Nonterminal) : reading L [.nonterminal nt] = L nt := by
  rw [reading_cons, reading, List.map_nil, List.prod_nil, mul_one, Symbol.reading]

/-- A word of a list that begins with a character begins with it. -/
theorem mem_reading_terminal {L : Nonterminal → Words} {c : Char} {p : Production} {word : List Char} :
    word ∈ reading L (.terminal c :: p) ↔ ∃ rest ∈ reading L p, word = c :: rest := by
  rw [reading_cons, Symbol.reading, Language.mem_mul]
  constructor
  · rintro ⟨u, hu, v, hv, rfl⟩
    cases Set.mem_singleton_iff.1 hu
    exact ⟨v, hv, rfl⟩
  · rintro ⟨v, hv, rfl⟩
    exact ⟨[c], Set.mem_singleton [c], v, hv, rfl⟩

/-- A word of a list that begins with a nonterminal begins with a word of it. -/
theorem mem_reading_nonterminal {L : Nonterminal → Words} {nt : Nonterminal} {p : Production} {word : List Char} :
    word ∈ reading L (.nonterminal nt :: p) ↔ ∃ u ∈ L nt, ∃ v ∈ reading L p, u ++ v = word := by
  rw [reading_cons, Symbol.reading, Language.mem_mul]

theorem mem_reading_append {L : Nonterminal → Words} {p q : Production} {word : List Char} :
    word ∈ reading L (p ++ q) ↔ ∃ u ∈ reading L p, ∃ v ∈ reading L q, u ++ v = word := by
  rw [reading_append, Language.mem_mul]

/-- A list that only has characters stands for one word. -/
theorem mem_reading_ofWord {L : Nonterminal → Words} {v word : List Char} : word ∈ reading L (ofWord v) ↔ word = v := by
  induction v generalizing word with
  | nil => exact mem_reading_nil
  | cons c v ih =>
    rw [ofWord, List.map_cons, mem_reading_terminal]
    constructor
    · rintro ⟨rest, hr, rfl⟩
      rw [ih.1 hr]
    · rintro rfl
      exact ⟨v, ih.2 rfl, rfl⟩

/-- The more the nonterminals of a list stand for, the more the list does. -/
theorem reading_mono {L M : Nonterminal → Words} {p : Production}
    (h : ∀ nt, .nonterminal nt ∈ p → ∀ word ∈ L nt, word ∈ M nt) : ∀ word ∈ reading L p, word ∈ reading M p := by
  induction p with
  | nil => exact fun _ hw => hw
  | cons s p ih =>
    have ih := ih fun nt hnt => h nt (List.mem_cons_of_mem s hnt)
    intro word hw
    cases s with
    | terminal c =>
      obtain ⟨rest, hr, rfl⟩ := mem_reading_terminal.1 hw
      exact mem_reading_terminal.2 ⟨rest, ih rest hr, rfl⟩
    | nonterminal nt =>
      obtain ⟨u, hu, v, hv, rfl⟩ := mem_reading_nonterminal.1 hw
      exact mem_reading_nonterminal.2 ⟨u, h nt List.mem_cons_self u hu, v, ih v hv, rfl⟩

/-- What a list stands for depends on its own nonterminals only. -/
theorem reading_congr {L M : Nonterminal → Words} {p : Production} (h : ∀ nt, .nonterminal nt ∈ p → L nt = M nt) :
    reading L p = reading M p :=
  Language.ext fun word =>
    ⟨reading_mono (fun nt hnt _ hw => h nt hnt ▸ hw) word, reading_mono (fun nt hnt _ hw => h nt hnt ▸ hw) word⟩

/-- What a nonterminal stands for matters only where it is mentioned. -/
theorem reading_update {L : Nonterminal → Words} {nt : Nonterminal} {X : Words} {p : Production}
    (h : .nonterminal nt ∉ p) : reading (Function.update L nt X) p = reading L p := by
  refine reading_congr fun m hm => ?_
  have hne : m ≠ nt := by
    rintro rfl
    exact h hm
  rw [Function.update_of_ne hne]

/-- The words that the productions of a list stand for, all together. -/
def readings (L : Nonterminal → Words) (ps : List Production) : Words := {word | ∃ p ∈ ps, word ∈ reading L p}

theorem mem_readings {L : Nonterminal → Words} {ps : List Production} {word : List Char} :
    word ∈ readings L ps ↔ ∃ p ∈ ps, word ∈ reading L p := Iff.rfl

/-- A list that stands for some word has only nonterminals that stand for some word. -/
theorem nonempty_of_mem_reading {L : Nonterminal → Words} {p : Production} {word : List Char} (hw : word ∈ reading L p) :
    ∀ nt, .nonterminal nt ∈ p → ∃ u, u ∈ L nt := by
  induction p generalizing word with
  | nil => exact fun _ h => nomatch h
  | cons s p ih =>
    intro nt hnt
    cases s with
    | terminal c =>
      obtain ⟨rest, hr, rfl⟩ := mem_reading_terminal.1 hw
      exact ih hr nt ((List.mem_cons.1 hnt).resolve_left nofun)
    | nonterminal m =>
      obtain ⟨u, hu, v, hv, rfl⟩ := mem_reading_nonterminal.1 hw
      rcases List.mem_cons.1 hnt with hm | hnt
      · cases hm
        exact ⟨u, hu⟩
      · exact ih hv nt hnt

/-- A list stands for some word as soon as all its nonterminals do. -/
theorem exists_mem_reading {L : Nonterminal → Words} {p : Production} (h : ∀ nt, .nonterminal nt ∈ p → ∃ u, u ∈ L nt) :
    ∃ word, word ∈ reading L p := by
  induction p with
  | nil => exact ⟨[], mem_reading_nil.2 rfl⟩
  | cons s p ih =>
    obtain ⟨v, hv⟩ := ih fun nt hnt => h nt (List.mem_cons_of_mem s hnt)
    cases s with
    | terminal c => exact ⟨c :: v, mem_reading_terminal.2 ⟨v, hv, rfl⟩⟩
    | nonterminal nt =>
      obtain ⟨u, hu⟩ := h nt List.mem_cons_self
      exact ⟨u ++ v, mem_reading_nonterminal.2 ⟨u, hu, v, hv, rfl⟩⟩

end Production

namespace Grammar

open Production (reading)

/-- The words that a nonterminal generates, as a set. -/
def words (g : Grammar) (nt : Nonterminal) : Words := {word | g.Generates nt word}

/-- The productions of a grammar stand for no more than their nonterminals do. -/
def Closed (g : Grammar) (L : Nonterminal → Words) : Prop :=
  ∀ nt, ∀ p ∈ g.productionsOf nt, ∀ word ∈ reading L p, word ∈ L nt

/-! ## Derivations -/

/-- One step from a nonterminal alone leads to its productions. -/
theorem step_singleton_iff {g : Grammar} {nt : Nonterminal} {form : List Symbol} :
    Step g [.nonterminal nt] form ↔ form ∈ g.productionsOf nt := by
  constructor
  · intro h
    generalize hfirst : [Symbol.nonterminal nt] = first at h
    cases h with
    | @expand before after k p hp =>
      cases before with
      | nil =>
        cases hfirst
        simpa using hp
      | cons t before => simp at hfirst
  · intro h
    simpa using Step.expand (g := g) [] [] h

/-- One derivation can follow another. -/
theorem Derives.trans {g : Grammar} {a b c : List Symbol} (h : Derives g a b) (h' : Derives g b c) : Derives g a c := by
  induction h' with
  | refl => exact h
  | tail _ hs ih => exact Derives.tail ih hs

/-- A derivation can follow a step. -/
theorem Derives.head {g : Grammar} {a b c : List Symbol} (h : Step g a b) (h' : Derives g b c) : Derives g a c :=
  Derives.trans (Derives.tail (Derives.refl a) h) h'

/-- A step can be made anywhere. -/
theorem Step.context {g : Grammar} {a b : List Symbol} (h : Step g a b) (before after : List Symbol) :
    Step g (before ++ a ++ after) (before ++ b ++ after) := by
  cases h with
  | expand x y hp =>
    have hs := Step.expand (before ++ x) (y ++ after) hp
    simpa only [List.append_assoc, List.cons_append] using hs

/-- A derivation can be made anywhere. -/
theorem Derives.context {g : Grammar} {a b : List Symbol} (h : Derives g a b) (before after : List Symbol) :
    Derives g (before ++ a ++ after) (before ++ b ++ after) := by
  induction h with
  | refl => exact Derives.refl _
  | tail _ hs ih => exact Derives.tail ih (hs.context before after)

/-- Two derivations can be made side by side. -/
theorem Derives.append {g : Grammar} {a b c d : List Symbol} (h : Derives g a b) (h' : Derives g c d) :
    Derives g (a ++ c) (b ++ d) := by
  have hl := h.context [] c
  have hr := h'.context b []
  rw [List.nil_append, List.nil_append] at hl
  rw [List.append_nil, List.append_nil] at hr
  exact hl.trans hr

/-- In an assignment that is closed under the productions, a step only loses words. -/
theorem Step.reading_le {g : Grammar} {L : Nonterminal → Words} (hL : g.Closed L) {a b : List Symbol} (h : Step g a b) :
    ∀ word ∈ reading L b, word ∈ reading L a := by
  cases h with
  | @expand before after nt p hp =>
    intro word hw
    rw [Production.mem_reading_append] at hw
    obtain ⟨u, hu, v, hv, rfl⟩ := hw
    obtain ⟨x, hx, y, hy, rfl⟩ := Production.mem_reading_append.1 hu
    rw [List.append_assoc]
    exact Production.mem_reading_append.2
      ⟨x, hx, y ++ v, Production.mem_reading_nonterminal.2 ⟨y, hL nt p hp y hy, v, hv, rfl⟩, rfl⟩

/-- In an assignment that is closed under the productions, a derivation only loses words. -/
theorem Derives.reading_le {g : Grammar} {L : Nonterminal → Words} (hL : g.Closed L) {a b : List Symbol}
    (h : Derives g a b) : ∀ word ∈ reading L b, word ∈ reading L a := by
  induction h with
  | refl => exact fun _ hw => hw
  | tail _ hs ih => exact fun word hw => ih word (hs.reading_le hL word hw)

/-! ## The least solution -/

/-- What a list of symbols derives, if it is a word, is among the words of any closed assignment. -/
theorem mem_reading_of_derives {g : Grammar} {L : Nonterminal → Words} (hL : g.Closed L) {form : List Symbol}
    {word : List Char} (h : Derives g form (Production.ofWord word)) : word ∈ reading L form :=
  h.reading_le hL word (Production.mem_reading_ofWord.2 rfl)

/-- A grammar generates no more than any assignment that is closed under its productions. -/
theorem words_le {g : Grammar} {L : Nonterminal → Words} (hL : g.Closed L) {nt : Nonterminal} {word : List Char}
    (h : word ∈ g.words nt) : word ∈ L nt := by
  have hw := mem_reading_of_derives hL h
  rwa [Production.reading_singleton] at hw

/-- A list of symbols derives what it stands for. -/
theorem derives_of_mem_reading {g : Grammar} {form : List Symbol} {word : List Char} (h : word ∈ reading g.words form) :
    Derives g form (Production.ofWord word) := by
  induction form generalizing word with
  | nil =>
    rw [Production.mem_reading_nil.1 h]
    exact Derives.refl _
  | cons s form ih =>
    cases s with
    | terminal c =>
      obtain ⟨rest, hr, rfl⟩ := Production.mem_reading_terminal.1 h
      exact Derives.append (Derives.refl [.terminal c]) (ih hr)
    | nonterminal nt =>
      obtain ⟨u, hu, v, hv, rfl⟩ := Production.mem_reading_nonterminal.1 h
      rw [Production.ofWord, List.map_append]
      exact Derives.append (a := [.nonterminal nt]) hu (ih hv)

/-- What a grammar generates is closed under its productions. -/
theorem words_closed (g : Grammar) : g.Closed g.words := by
  intro nt p hp word hw
  exact Derives.head (step_singleton_iff.2 hp) (derives_of_mem_reading hw)

/-- A word of a nonterminal is a word of one of its productions. -/
theorem mem_words_iff {g : Grammar} {nt : Nonterminal} {word : List Char} :
    word ∈ g.words nt ↔ ∃ p ∈ g.productionsOf nt, word ∈ reading g.words p := by
  constructor
  · refine words_le (L := fun nt => {word | ∃ p ∈ g.productionsOf nt, word ∈ reading g.words p}) ?_
    intro nt p hp word hw
    refine ⟨p, hp, Production.reading_mono ?_ word hw⟩
    rintro m - u ⟨q, hq, hu⟩
    exact words_closed g m q hq u hu
  · rintro ⟨p, hp, hw⟩
    exact words_closed g nt p hp word hw

/-- What a list of symbols derives, if it is a word, is what it stands for. -/
theorem derives_ofWord_iff {g : Grammar} {form : List Symbol} {word : List Char} :
    Derives g form (Production.ofWord word) ↔ word ∈ reading g.words form :=
  ⟨mem_reading_of_derives (words_closed g), derives_of_mem_reading⟩

/-- A list of symbols derives the empty list when it stands for the empty word. -/
theorem derives_nil_iff {g : Grammar} {form : List Symbol} : Derives g form [] ↔ [] ∈ reading g.words form :=
  @derives_ofWord_iff g form []

theorem language_iff_mem_words {g : Grammar} {word : List Char} : g.Language word ↔ word ∈ g.words g.start := Iff.rfl

/-- A grammar with fewer productions generates no more. -/
theorem words_mono {g h : Grammar} (hsub : ∀ nt, ∀ p ∈ h.productionsOf nt, p ∈ g.productionsOf nt) {nt : Nonterminal}
    {word : List Char} (hw : word ∈ h.words nt) : word ∈ g.words nt :=
  words_le (fun m p hp => words_closed g m p (hsub m p hp)) hw

end Grammar

end TopDown
