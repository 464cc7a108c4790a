import Mathlib.Data.List.Forall2
import TopDown.Proofs.Lines
import TopDown.WordList

/-!
# Word lists keep their words

A text gives a word list when its first line, if it has one, is a header. Every line that is not a header is then a case, its word
the line as it stands, and what is expected of it stands in the nearest header above. A list that is written as one header and one
word for each case is read again, unless a word is no line of its own: it holds a line feed, it ends with a carriage return, which
would be taken for a part of the line's end, or it would be taken for a header.

Main statements: `exists_readCases_zipIdx` (the lines below a header), `ofText_write` and `ofText_exact`.
-/

namespace TopDown.WordList

open Text (lines trim)

/-! ## Headers -/

/-- The header above words of which this is expected. -/
def headerLine : (expected : Bool) → List Char
  | true => ['[', 't', 'r', 'u', 'e', ']']
  | false => ['[', 'f', 'a', 'l', 's', 'e', ']']

/-- A line is a header, blanks around it aside. -/
def IsHeader (line : List Char) : Prop := ∃ expected, trim line = headerLine expected

instance : DecidablePred IsHeader := fun line => inferInstanceAs (Decidable (∃ expected, trim line = headerLine expected))

/-- A line says what to expect when it is the header for that. -/
theorem header?_eq_some_iff {line : List Char} {expected : Bool} :
    header? line = some expected ↔ trim line = headerLine expected := by
  simp only [header?]
  split
  · cases expected <;> simp [headerLine, *]
  · split <;> cases expected <;> simp [headerLine, *]

theorem header?_eq_none_iff {line : List Char} : header? line = none ↔ ¬IsHeader line := by
  simp only [IsHeader, ← header?_eq_some_iff, Option.eq_none_iff_forall_ne_some, not_exists, ne_eq]

/-- What the nearest header says that stands above a line: no header stands between them. -/
def IsNearest (above : List (List Char)) (expected : Bool) : Prop :=
  ∃ before header between, above = before ++ header :: between ∧ trim header = headerLine expected ∧
    ∀ line ∈ between, ¬IsHeader line

/-- The nearest header is the first that is met on the way up. -/
theorem isNearest_iff {above : List (List Char)} {expected : Bool} :
    IsNearest above expected ↔ above.reverse.findSome? header? = some expected := by
  rw [List.findSome?_eq_some_iff]
  constructor
  · rintro ⟨before, header, between, rfl, hheader, hbetween⟩
    refine ⟨between.reverse, header, before.reverse, by simp, header?_eq_some_iff.2 hheader, fun line hline => ?_⟩
    exact header?_eq_none_iff.2 (hbetween line (List.mem_reverse.1 hline))
  · rintro ⟨between, header, before, habove, hheader, hbetween⟩
    refine ⟨before.reverse, header, between.reverse, ?_, header?_eq_some_iff.1 hheader, fun line hline => ?_⟩
    · rw [← List.reverse_reverse above, habove]
      simp
    · exact header?_eq_none_iff.1 (hbetween line (List.mem_reverse.1 hline))

/-- Right below a header it is the nearest. -/
theorem isNearest_concat_header (above : List (List Char)) {header : List Char} {expected : Bool}
    (h : header? header = some expected) : IsNearest (above ++ [header]) expected :=
  ⟨above, header, [], rfl, header?_eq_some_iff.1 h, by simp⟩

/-- A line that is no header does not come between. -/
theorem IsNearest.concat {above : List (List Char)} {expected : Bool} (h : IsNearest above expected) {line : List Char}
    (hline : header? line = none) : IsNearest (above ++ [line]) expected := by
  obtain ⟨before, header, between, rfl, hheader, hbetween⟩ := h
  refine ⟨before, header, between ++ [line], by simp, hheader, fun l hl => ?_⟩
  rcases List.mem_append.1 hl with hl | hl
  · exact hbetween l hl
  · rw [List.mem_singleton.1 hl]
    exact header?_eq_none_iff.1 hline

/-! ## Reading -/

section ReadCases

variable {line : List Char} {rest : List (List Char × Nat)}

/-- A header says what is expected from there on. -/
theorem readCases_header {said : Bool} (h : header? line = some said) (expected : Option Bool) (number : Nat) :
    readCases expected ((line, number) :: rest) = readCases (some said) rest := by
  simp [readCases, h]

/-- Any other line is a word. -/
theorem readCases_word (h : header? line = none) (expected : Bool) (number : Nat) :
    readCases (some expected) ((line, number) :: rest) =
      (⟨String.ofList line, expected⟩ :: ·) <$> readCases (some expected) rest := by
  simp [readCases, h]

/-- A word is blamed when there was no header. -/
theorem readCases_missing (h : header? line = none) (number : Nat) :
    readCases none ((line, number) :: rest) = .error (.missingHeader number) := by
  simp [readCases, h]

end ReadCases

/-- What a case is read from: a line that is its word, and above it the header for what is expected of it. -/
structure ReadFrom (ls : List (List Char)) (line : List Char × Nat) (c : Case) : Prop where
  word : c.word.toList = line.1
  nearest : IsNearest (ls.take line.2) c.expected

/-- A line leaves no choice of a case. -/
theorem ReadFrom.unique {ls : List (List Char)} {line : List Char × Nat} {c d : Case} (hc : ReadFrom ls line c)
    (hd : ReadFrom ls line d) : c = d := by
  obtain ⟨word, expected⟩ := c
  obtain ⟨word', expected'⟩ := d
  obtain rfl : word = word' := String.toList_inj.1 (hc.word.trans hd.word.symm)
  have hsame : some expected = some expected' := (isNearest_iff.1 hc.nearest).symm.trans (isNearest_iff.1 hd.nearest)
  cases hsame
  rfl

/-- The lines that are no headers, with their places, which are counted from `k`. -/
def wordLines (ls : List (List Char)) (k : Nat) : List (List Char × Nat) := (ls.zipIdx k).filter fun line => ¬IsHeader line.1

theorem wordLines_header {line : List Char} (h : IsHeader line) (ls : List (List Char)) (k : Nat) :
    wordLines (line :: ls) k = wordLines ls (k + 1) := by
  rw [wordLines, List.zipIdx_cons, List.filter_cons_of_neg (by simpa using h), wordLines]

theorem wordLines_word {line : List Char} (h : ¬IsHeader line) (ls : List (List Char)) (k : Nat) :
    wordLines (line :: ls) k = (line, k) :: wordLines ls (k + 1) := by
  rw [wordLines, List.zipIdx_cons, List.filter_cons_of_pos (by simpa using h), wordLines]

/-- Below a header every line is read, whatever it is. -/
theorem exists_readCases_zipIdx {above : List (List Char)} {expected : Bool} (h : IsNearest above expected)
    (rest : List (List Char)) (k : Nat) : ∃ cases, readCases (some expected) (rest.zipIdx k) = .ok cases ∧
      List.Forall₂ (ReadFrom (above ++ rest)) (wordLines rest above.length) cases := by
  induction rest generalizing above expected k with
  | nil => exact ⟨[], rfl, .nil⟩
  | cons line rest ih =>
    have hplace : above.length + 1 = (above ++ [line]).length := by simp
    rw [List.append_cons above line rest, List.zipIdx_cons]
    cases hline : header? line with
    | some said =>
      obtain ⟨cases, hread, hcases⟩ := ih (isNearest_concat_header above hline) (k + 1)
      refine ⟨cases, (readCases_header hline _ k).trans hread, ?_⟩
      rwa [wordLines_header ⟨said, header?_eq_some_iff.1 hline⟩, hplace]
    | none =>
      obtain ⟨cases, hread, hcases⟩ := ih (h.concat hline) (k + 1)
      refine ⟨⟨String.ofList line, expected⟩ :: cases, ?_, ?_⟩
      · rw [readCases_word hline, hread]
        rfl
      · rw [wordLines_word (header?_eq_none_iff.1 hline), hplace]
        refine .cons ⟨String.toList_ofList, ?_⟩ hcases
        simpa using h

/-- There is a first line, and it is no header. -/
def StartsWithWord (text : String) : Prop := ∃ first rest, lines text.toList = first :: rest ∧ ¬IsHeader first

/-- A text that starts with a word is blamed for its first line. -/
theorem ofText_of_startsWithWord {text : String} (h : StartsWithWord text) : ofText text = .error (.missingHeader 1) := by
  obtain ⟨first, rest, hlines, hword⟩ := h
  rw [ofText, hlines, List.zipIdx_cons]
  exact readCases_missing (header?_eq_none_iff.2 hword) 1

/-- Any other text is read, and its cases are its word lines. -/
theorem exists_ofText_of_not_startsWithWord {text : String} (h : ¬StartsWithWord text) : ∃ cases, ofText text = .ok cases ∧
    List.Forall₂ (ReadFrom (lines text.toList)) (wordLines (lines text.toList) 0) cases := by
  rw [ofText]
  cases hlines : lines text.toList with
  | nil => exact ⟨[], rfl, .nil⟩
  | cons first rest =>
    have hheader : IsHeader first := Decidable.not_not.1 fun hword => h ⟨first, rest, hlines, hword⟩
    obtain ⟨said, hsaid⟩ := hheader
    have hfirst := header?_eq_some_iff.2 hsaid
    obtain ⟨cases, hread, hcases⟩ := exists_readCases_zipIdx (isNearest_concat_header [] hfirst) rest 2
    refine ⟨cases, (readCases_header hfirst none 1).trans hread, ?_⟩
    rwa [wordLines_header ⟨said, hsaid⟩]

/-- A text fails at its first line, and only when this is a word. -/
theorem ofText_eq_error_iff {text : String} {e : WordListError} :
    ofText text = .error e ↔ StartsWithWord text ∧ e = .missingHeader 1 := by
  by_cases h : StartsWithWord text
  · simp [ofText_of_startsWithWord h, h, eq_comm]
  · obtain ⟨cases, hread, -⟩ := exists_ofText_of_not_startsWithWord h
    simp [hread, h]

/-- Otherwise it gives the cases that are read from its word lines, and no others. -/
theorem ofText_eq_ok_iff {text : String} {cases : List Case} : ofText text = .ok cases ↔
    ¬StartsWithWord text ∧ List.Forall₂ (ReadFrom (lines text.toList)) (wordLines (lines text.toList) 0) cases := by
  by_cases h : StartsWithWord text
  · simp [ofText_of_startsWithWord h, h]
  · obtain ⟨cases', hread, hcases'⟩ := exists_ofText_of_not_startsWithWord h
    simp only [hread, Except.ok.injEq, h, not_false_eq_true, true_and]
    constructor
    · intro heq
      exact heq ▸ hcases'
    · exact fun hcases => List.right_unique_forall₂' (fun _ _ _ hc hd => hc.unique hd) hcases' hcases

/-- The words of the cases are lines of the text. -/
theorem mem_lines_of_ofText {text : String} {cases : List Case} (h : ofText text = .ok cases) :
    ∀ c ∈ cases, c.word.toList ∈ lines text.toList := by
  have hwords : ∀ {ls : List (List Char × Nat)} {cs : List Case}, List.Forall₂ (ReadFrom (lines text.toList)) ls cs →
      ∀ c ∈ cs, ∃ line ∈ ls, c.word.toList = line.1 := by
    intro ls cs hread
    induction hread with
    | nil => simp
    | cons hc _ ih =>
      rw [List.forall_mem_cons]
      refine ⟨⟨_, List.mem_cons_self, hc.word⟩, fun c hcs => ?_⟩
      obtain ⟨line, hline, hword⟩ := ih c hcs
      exact ⟨line, List.mem_cons_of_mem _ hline, hword⟩
  intro c hc
  obtain ⟨line, hline, hword⟩ := hwords (ofText_eq_ok_iff.1 h).2 c hc
  rw [hword]
  exact List.fst_mem_of_mem_zipIdx (List.mem_of_mem_filter hline)

/-! ## Writing -/

/-- A list as it is written: for each case its header and its word, each on a line that is ended by a line feed. -/
def write (cases : List Case) : String :=
  String.ofList ((cases.flatMap fun c => [headerLine c.expected, c.word.toList]).flatMap fun line => line ++ ['\n'])

/-- A word that can be written is a line of its own: it holds no line feed, no carriage return at its end would go with the line's
end, and it is no header. -/
structure IsWritable (word : String) : Prop where
  line : '\n' ∉ word.toList
  ending : word.toList.getLast? ≠ some '\r'
  plain : ¬IsHeader word.toList

/-- A case without a carriage return at the end of its word. -/
def dropReturn (c : Case) : Case := ⟨String.ofList (dropFinal '\r' c.word.toList), c.expected⟩

theorem header?_headerLine (expected : Bool) : header? (headerLine expected) = some expected := by
  cases expected <;> decide

/-- Where no word holds a line feed, only a carriage return at its end is lost from its line. -/
theorem lines_write {cases : List Case} (h : ∀ c ∈ cases, '\n' ∉ c.word.toList) :
    lines (write cases).toList = cases.flatMap fun c => [headerLine c.expected, dropFinal '\r' c.word.toList] := by
  have hheader : ∀ expected, '\n' ∉ headerLine expected ∧ dropFinal '\r' (headerLine expected) = headerLine expected := by decide
  have hlines : ∀ line ∈ cases.flatMap fun c => [headerLine c.expected, c.word.toList], '\n' ∉ line := by
    intro line hline
    obtain ⟨c, hc, hline⟩ := List.mem_flatMap.1 hline
    simp only [List.mem_cons, List.not_mem_nil, or_false] at hline
    rcases hline with rfl | rfl
    · exact (hheader c.expected).1
    · exact h c hc
  rw [write, String.toList_ofList, Text.lines_unlines hlines, List.map_flatMap]
  simp [hheader]

/-- Every header that was written is followed by its word, if this is not taken for a header too. -/
theorem readCases_written (cases : List Case) (expected : Option Bool) (k : Nat) :
    readCases expected ((cases.flatMap fun c => [headerLine c.expected, dropFinal '\r' c.word.toList]).zipIdx k) =
      .ok ((cases.filter fun c => ¬IsHeader (dropFinal '\r' c.word.toList)).map dropReturn) := by
  induction cases generalizing expected k with
  | nil => rfl
  | cons c cases ih =>
    rw [List.flatMap_cons, List.cons_append, List.cons_append, List.nil_append, List.zipIdx_cons, List.zipIdx_cons,
      readCases_header (header?_headerLine c.expected)]
    cases hword : header? (dropFinal '\r' c.word.toList) with
    | some said =>
      have hheader : IsHeader (dropFinal '\r' c.word.toList) := ⟨said, header?_eq_some_iff.1 hword⟩
      rw [readCases_header hword, ih, List.filter_cons_of_neg (by simpa using hheader)]
    | none =>
      have hplain : ¬IsHeader (dropFinal '\r' c.word.toList) := header?_eq_none_iff.1 hword
      rw [readCases_word hword, ih, List.filter_cons_of_pos (by simpa using hplain), List.map_cons]
      rfl

/-- What is lost when a list whose words hold no line feed is written and read: the words that are taken for headers, and a
carriage return at the end of a word. -/
theorem ofText_write {cases : List Case} (h : ∀ c ∈ cases, '\n' ∉ c.word.toList) :
    ofText (write cases) = .ok ((cases.filter fun c => ¬IsHeader (dropFinal '\r' c.word.toList)).map dropReturn) := by
  rw [ofText, lines_write h]
  exact readCases_written cases none 1

/-- A list that was written is read again when all its words can be written, and only then. -/
theorem ofText_write_eq_iff {cases : List Case} : ofText (write cases) = .ok cases ↔ ∀ c ∈ cases, IsWritable c.word := by
  constructor
  · intro h
    have hline : ∀ c ∈ cases, '\n' ∉ c.word.toList := fun c hc =>
      Text.newline_not_mem_of_mem_lines (mem_lines_of_ofText h c hc)
    have hsame : (cases.filter fun c => ¬IsHeader (dropFinal '\r' c.word.toList)).map dropReturn = cases :=
      Except.ok.inj ((ofText_write hline).symm.trans h)
    have hall : (cases.filter fun c => ¬IsHeader (dropFinal '\r' c.word.toList)).length = cases.length := by
      rw [← List.length_map, hsame]
    have hplain := List.length_filter_eq_length_iff.1 hall
    rw [List.filter_eq_self.2 hplain] at hsame
    have hkept := List.map_inj_left.1 (hsame.trans (List.map_id cases).symm)
    intro c hc
    have hword : dropFinal '\r' c.word.toList = c.word.toList := by
      have hc := congrArg (fun c => c.word.toList) (hkept c hc)
      simpa [dropReturn] using hc
    refine ⟨hline c hc, fun hending => dropFinal_ne_self hending hword, ?_⟩
    simpa [hword] using hplain c hc
  · intro h
    have hword : ∀ c ∈ cases, dropFinal '\r' c.word.toList = c.word.toList := fun c hc => dropFinal_eq_self (h c hc).ending
    have hplain : (cases.filter fun c => ¬IsHeader (dropFinal '\r' c.word.toList)) = cases := by
      refine List.filter_eq_self.2 fun c hc => ?_
      simpa [hword c hc] using (h c hc).plain
    have hkept : cases.map dropReturn = cases.map id := by
      refine List.map_congr_left fun c hc => ?_
      simp [dropReturn, hword c hc]
    rw [ofText_write fun c hc => (h c hc).line, hplain, hkept, List.map_id]

/-- How a text is read as a word list. It fails when its first line is a word, and this line is blamed. Otherwise its cases are
the lines that are no headers, each word the line as it stands, with what the nearest header above says. A list that was written
is read again exactly when its words can be written. -/
theorem ofText_exact (text : String) :
    (∀ e, ofText text = .error e ↔ StartsWithWord text ∧ e = .missingHeader 1) ∧
    (∀ cases, ofText text = .ok cases ↔
      ¬StartsWithWord text ∧ List.Forall₂ (ReadFrom (lines text.toList)) (wordLines (lines text.toList) 0) cases) ∧
    ∀ cases, ofText (write cases) = .ok cases ↔ ∀ c ∈ cases, IsWritable c.word :=
  ⟨fun _ => ofText_eq_error_iff, fun _ => ofText_eq_ok_iff, fun _ => ofText_write_eq_iff⟩

/-- Blanks around a header are left out, those of a word are kept, and a carriage return at the very end is a part of the word. -/
example : ofText " [true]\t\n[x] \n\n[false]\r\nba\r" = .ok [⟨"[x] ", true⟩, ⟨"", true⟩, ⟨"ba\r", false⟩] := by decide

end TopDown.WordList
