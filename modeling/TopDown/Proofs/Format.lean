import TopDown.Proofs.Loading
import TopDown.Proofs.Reading

/-!
# The format of grammar texts

What a text has to look like, said without the reader. A line that is not blank is cut at its first `::=`. Before it stands a
name in angle brackets, with blanks around it at most. After it stand plain characters, escaped reserved characters, bars and
references in any order. A text gives a grammar when all its lines are like that and at least one is not blank; otherwise the
first line that is not is blamed, by its number among all lines.

Main statements: `Definition.ofLine_eq_ok_iff_says`, `Definition.exists_ofLine_iff` (for one line) and `Grammar.ofText_format`.
-/

namespace TopDown

open Text (isReserved isBlank trim)

/-! ## One line -/

namespace Definition

/-- What can stand after `::=`. A reference may hold a bar, but no bracket and no backslash. -/
inductive IsBody : List Char → Prop where
  | nil : IsBody []
  | plain {c : Char} {cs : List Char} (hc : isReserved c = false) (h : IsBody cs) : IsBody (c :: cs)
  | escaped {c : Char} {cs : List Char} (hc : isReserved c = true) (h : IsBody cs) : IsBody ('\\' :: c :: cs)
  | bar {cs : List Char} (h : IsBody cs) : IsBody ('|' :: cs)
  | reference {name : String} {cs : List Char} (hname : IsReference name) (h : IsBody cs) :
      IsBody ('<' :: name.toList ++ '>' :: cs)

/-- The parts of a line before and after its first `::=`: whatever other `::=` the line has comes later. -/
structure CutAtSign (line before after : List Char) : Prop where
  parts : line = before ++ ':' :: ':' :: '=' :: after
  first : ∀ before' after', line = before' ++ ':' :: ':' :: '=' :: after' → before.length ≤ before'.length

/-- A line has the format: before the first `::=` stands, but for blanks around it, a name in angle brackets. -/
def HasFormat (line : List Char) : Prop :=
  ∃ before after name, CutAtSign line before after ∧ trim before = '<' :: name.toList ++ ['>'] ∧ IsName name ∧ IsBody after

/-- What is written for a piece can be put in front of what stands after `::=`. -/
theorem IsBody.token {t : Token} (ht : t.Legal) {cs : List Char} (h : IsBody cs) : IsBody (t.text ++ cs) := by
  cases t with
  | bar => exact h.bar
  | atom a =>
    cases a with
    | terminal c =>
      cases hc : isReserved c with
      | true => simpa [Token.text, Atom.text, hc] using h.escaped hc
      | false => simpa [Token.text, Atom.text, hc] using h.plain hc
    | reference name => simpa [Token.text, Atom.text] using h.reference ht

/-- The part after `::=` has the format when it is what is written for some pieces. -/
theorem isBody_iff {cs : List Char} :
    IsBody cs ↔ ∃ ts : List Token, (∀ t ∈ ts, t.Legal) ∧ cs = ts.flatMap Token.text := by
  constructor
  · intro h
    have hcons : ∀ {t : Token} {cs cs' : List Char}, t.Legal → cs' = t.text ++ cs →
        (∃ ts : List Token, (∀ t ∈ ts, t.Legal) ∧ cs = ts.flatMap Token.text) →
        ∃ ts : List Token, (∀ t ∈ ts, t.Legal) ∧ cs' = ts.flatMap Token.text := by
      rintro t _ _ ht rfl ⟨ts, hts, rfl⟩
      exact ⟨t :: ts, List.forall_mem_cons.2 ⟨ht, hts⟩, rfl⟩
    induction h with
    | nil => exact ⟨[], by simp, rfl⟩
    | @plain c cs hc _ ih => exact hcons (t := .atom (.terminal c)) trivial (by simp [Token.text, Atom.text, hc]) ih
    | @escaped c cs hc _ ih => exact hcons (t := .atom (.terminal c)) trivial (by simp [Token.text, Atom.text, hc]) ih
    | bar _ ih => exact hcons (t := .bar) trivial rfl ih
    | @reference name cs hname _ ih =>
      exact hcons (t := .atom (.reference name)) hname (by simp [Token.text, Atom.text]) ih
  · rintro ⟨ts, hts, rfl⟩
    induction ts with
    | nil => exact .nil
    | cons t ts ih =>
      obtain ⟨ht, hts⟩ := List.forall_mem_cons.1 hts
      exact (ih hts).token ht

/-- The reader accepts what stands after `::=` when it has the format. -/
theorem exists_scan_iff {cs : List Char} : (∃ ts, scan .body cs = .ok ts) ↔ IsBody cs := by
  simp only [scan_eq_ok_iff, isBody_iff]

/-- The reader cuts a line at its first `::=`. -/
theorem splitLine?_eq_some_iff {line before after : List Char} :
    splitLine? line = some (before, after) ↔ CutAtSign line before after := by
  induction line generalizing before with
  | nil => exact iff_of_false nofun fun h => by simpa using h.parts
  | cons c line ih =>
    by_cases hprefix : [':', ':', '='] <+: c :: line
    · obtain ⟨rest, hrest⟩ := hprefix
      cases hrest
      constructor
      · rintro ⟨⟩
        exact ⟨rfl, fun _ _ _ => Nat.zero_le _⟩
      · intro h
        obtain rfl : before = [] := List.length_eq_zero_iff.1 (Nat.le_zero.1 (h.first [] rest rfl))
        cases h.parts
        rfl
    · have htail : ∀ before' after', c :: line = before' ++ ':' :: ':' :: '=' :: after' →
          ∃ rest, before' = c :: rest ∧ line = rest ++ ':' :: ':' :: '=' :: after' := by
        intro before' after' heq
        cases before' with
        | nil => exact absurd ⟨after', heq.symm⟩ hprefix
        | cons d rest =>
          cases heq
          exact ⟨rest, rfl, rfl⟩
      rw [splitLine?_cons hprefix, Option.map_eq_some_iff]
      constructor
      · rintro ⟨⟨rest, after⟩, hrest, ⟨⟩⟩
        obtain ⟨hparts, hfirst⟩ := ih.1 hrest
        refine ⟨congrArg (c :: ·) hparts, fun before' after' heq => ?_⟩
        obtain ⟨rest', rfl, hline⟩ := htail before' after' heq
        exact Nat.succ_le_succ (hfirst rest' after' hline)
      · rintro ⟨hparts, hfirst⟩
        obtain ⟨rest, rfl, hline⟩ := htail before after hparts
        refine ⟨(rest, after), ih.2 ⟨hline, fun before' after' heq => ?_⟩, rfl⟩
        exact Nat.le_of_succ_le_succ (hfirst (c :: before') after' (congrArg (c :: ·) heq))

/-- What a line says: the definition whose head stands before the first `::=`, in angle brackets and with blanks around them at
most, and whose alternatives are what is written after it. -/
structure Says (line : List Char) (d : Definition) : Prop where
  parts : ∃ before, CutAtSign line before (bodyText d.alternatives) ∧ trim before = '<' :: d.head.toList ++ ['>']
  head : IsName d.head
  alternatives : d.alternatives ≠ []
  reference : ∀ name ∈ d.references, IsReference name

/-- A line is read as what it says. -/
theorem ofLine_eq_ok_iff_says {line : List Char} {d : Definition} : ofLine line = .ok d ↔ Says line d := by
  rw [ofLine_eq_ok_iff]
  constructor
  · rintro ⟨before, body, ts, hcut, hname, hscan, halternatives⟩
    obtain ⟨hname, htrim⟩ := readHead_eq_ok_iff.1 hname
    obtain ⟨hlegal, hbody⟩ := scan_eq_ok_iff.1 hscan
    have hjoin : joinBars d.alternatives = ts := by rw [halternatives, joinBars_splitAtBars]
    refine ⟨⟨before, ?_, htrim⟩, hname, halternatives ▸ splitAtBars_ne_nil ts, legal_joinBars_iff.1 (by rwa [hjoin])⟩
    rw [bodyText, hjoin, ← hbody]
    exact splitLine?_eq_some_iff.1 hcut
  · rintro ⟨⟨before, hcut, htrim⟩, hname, hne, hreference⟩
    exact ⟨before, _, _, splitLine?_eq_some_iff.2 hcut, readHead_eq_ok_iff.2 ⟨hname, htrim⟩,
      scan_tokens (legal_joinBars_iff.2 hreference), (splitAtBars_joinBars hne).symm⟩

/-- A line is read when it has the format. -/
theorem exists_ofLine_iff {line : List Char} : (∃ d, ofLine line = .ok d) ↔ HasFormat line := by
  constructor
  · rintro ⟨d, h⟩
    obtain ⟨before, after, ts, hcut, hname, hscan, -⟩ := ofLine_eq_ok_iff.1 h
    obtain ⟨hname, htrim⟩ := readHead_eq_ok_iff.1 hname
    exact ⟨before, after, d.head, splitLine?_eq_some_iff.1 hcut, htrim, hname, exists_scan_iff.1 ⟨ts, hscan⟩⟩
  · rintro ⟨before, after, name, hcut, htrim, hname, hbody⟩
    obtain ⟨ts, hts⟩ := exists_scan_iff.2 hbody
    exact ⟨⟨name, splitAtBars ts⟩, ofLine_eq_ok_iff.2
      ⟨before, after, ts, splitLine?_eq_some_iff.2 hcut, readHead_eq_ok_iff.2 ⟨hname, htrim⟩, hts, rfl⟩⟩

end Definition

/-! ## The first of several -/

section

variable {α β ε : Type} {f : α → Except ε β} {keep : α → Bool} {l : List α}

/-- When some members are read one after the other, the first that cannot be read decides the error. -/
theorem mapM_filter_eq_error_iff {e : ε} : (l.filter keep).mapM f = .error e ↔
    ∃ before a after, l = before ++ a :: after ∧ keep a = true ∧ f a = .error e ∧
      ∀ b ∈ before, keep b = true → ∃ y, f b = .ok y := by
  induction l with
  | nil => simp [pure, Except.pure]
  | cons a l ih =>
    have hpass : (keep a = true → ∃ y, f a = .ok y) →
        ((∃ before b after, a :: l = before ++ b :: after ∧ keep b = true ∧ f b = .error e ∧
            ∀ c ∈ before, keep c = true → ∃ y, f c = .ok y) ↔
          ∃ before b after, l = before ++ b :: after ∧ keep b = true ∧ f b = .error e ∧
            ∀ c ∈ before, keep c = true → ∃ y, f c = .ok y) := by
      intro hread
      constructor
      · rintro ⟨before, b, after, heq, hkeep, hb, hbefore⟩
        cases before with
        | nil =>
          cases heq
          obtain ⟨y, hy⟩ := hread hkeep
          rw [hb] at hy
          cases hy
        | cons c before =>
          cases heq
          exact ⟨before, b, after, rfl, hkeep, hb, fun d hd => hbefore d (List.mem_cons_of_mem a hd)⟩
      · rintro ⟨before, b, after, rfl, hkeep, hb, hbefore⟩
        exact ⟨a :: before, b, after, rfl, hkeep, hb, List.forall_mem_cons.2 ⟨hread, hbefore⟩⟩
    by_cases hkeep : keep a = true
    · rw [List.filter_cons_of_pos hkeep, List.mapM_cons]
      cases ha : f a with
      | error e' =>
        simp only [bind, Except.bind]
        constructor
        · rintro ⟨⟩
          exact ⟨[], a, l, rfl, hkeep, ha, by simp⟩
        · rintro ⟨before, b, after, heq, -, hb, hbefore⟩
          cases before with
          | nil =>
            cases heq
            rw [ha] at hb
            cases hb
            rfl
          | cons c before =>
            cases heq
            obtain ⟨y, hy⟩ := hbefore a List.mem_cons_self hkeep
            rw [ha] at hy
            cases hy
      | ok y =>
        rw [hpass fun _ => ⟨y, ha⟩, ← ih]
        cases (l.filter keep).mapM f <;> simp [bind, Except.bind, pure, Except.pure]
    · rw [List.filter_cons_of_neg hkeep, hpass fun h => absurd h hkeep, ih]

/-- Members are read one after the other when each can be read. -/
theorem exists_mapM_eq_ok_iff : (∃ ys, l.mapM f = .ok ys) ↔ ∀ a ∈ l, ∃ y, f a = .ok y := by
  induction l with
  | nil => simp [pure, Except.pure]
  | cons a l ih =>
    rw [List.forall_mem_cons, ← ih, List.mapM_cons]
    cases f a <;> cases l.mapM f <;> simp [bind, Except.bind, pure, Except.pure]

end

/-! ## The whole text -/

namespace Grammar

/-- A line of blanks only, or of nothing. -/
def IsBlankLine (line : List Char) : Prop := ∀ c ∈ line, isBlank c = true

/-- A line that a text may have: it is blank or has the format. -/
def IsReadable (line : List Char) : Prop := IsBlankLine line ∨ Definition.HasFormat line

/-- The number of the first line that is neither blank nor has the format. Lines are counted from one, the blank ones too. -/
def FirstFault (ls : List (List Char)) (number : Nat) : Prop :=
  ∃ before line after, ls = before ++ line :: after ∧ (∀ l ∈ before, IsReadable l) ∧ ¬ IsReadable line ∧
    number = before.length + 1

/-- The test for a line that is not blank. -/
theorem not_isEmpty_trim_iff {line : List Char} : (!(trim line).isEmpty) = true ↔ ¬ IsBlankLine line := by
  rw [Bool.not_eq_true', ← Bool.not_eq_true, List.isEmpty_iff, Text.trim_eq_nil_iff]
  rfl

/-- A line that is not blank is read when it has the format. -/
theorem exists_readLine_iff {line : List Char × Nat} : (∃ d, readLine line = .ok d) ↔ Definition.HasFormat line.1 := by
  simp only [readLine_eq_ok_iff, Definition.exists_ofLine_iff]

/-- A line that cannot be read is blamed by its number. -/
theorem exists_readLine_error_iff {line : List Char × Nat} {number : Nat} :
    (∃ e, readLine line = .error e ∧ e.line = number) ↔ ¬ Definition.HasFormat line.1 ∧ line.2 = number := by
  rw [← Definition.exists_ofLine_iff, readLine]
  cases Definition.ofLine line.1 <;> simp [Except.mapError, LoadError.line]

/-- What holds of the members of a list holds of them with their numbers. -/
theorem forall_mem_zipIdx {holds : List Char → Prop} {ls : List (List Char)} {k : Nat} :
    (∀ line ∈ ls.zipIdx k, holds line.1) ↔ ∀ line ∈ ls, holds line := by
  rw [← List.forall_mem_map, List.zipIdx_map_fst]

/-- The lines that are read are those that are not blank. -/
theorem forall_mem_numberedLines {holds : List Char → Prop} {text : String} :
    (∀ line ∈ numberedLines text, holds line.1) ↔ ∀ line ∈ Text.lines text.toList, IsBlankLine line ∨ holds line := by
  rw [← forall_mem_zipIdx (k := 1)]
  simp only [numberedLines, List.mem_filter, not_isEmpty_trim_iff, and_imp, or_iff_not_imp_left]

/-- No line is read when all are blank. -/
theorem numberedLines_eq_nil_iff {text : String} :
    numberedLines text = [] ↔ ∀ line ∈ Text.lines text.toList, IsBlankLine line := by
  have hnone := @forall_mem_numberedLines (fun _ => False) text
  rw [List.eq_nil_iff_forall_not_mem]
  simpa using hnone

/-- Every line of a text is read when all are readable. -/
theorem exists_mapM_readLine_iff {text : String} :
    (∃ ds, (numberedLines text).mapM readLine = .ok ds) ↔ ∀ line ∈ Text.lines text.toList, IsReadable line := by
  rw [exists_mapM_eq_ok_iff]
  simp only [exists_readLine_iff]
  exact forall_mem_numberedLines

/-- Reading the lines of a text fails at the first line that is not readable. -/
theorem exists_mapM_readLine_error_iff {text : String} {number : Nat} :
    (∃ e, (numberedLines text).mapM readLine = .error e ∧ e.line = number) ↔ FirstFault (Text.lines text.toList) number := by
  simp only [numberedLines, mapM_filter_eq_error_iff, not_isEmpty_trim_iff, exists_readLine_iff, ← or_iff_not_imp_left]
  constructor
  · rintro ⟨e, ⟨before, ⟨line, k⟩, after, heq, hblank, hline, hbefore⟩, he⟩
    obtain ⟨hformat, rfl⟩ := exists_readLine_error_iff.1 ⟨e, hline, he⟩
    obtain ⟨before, rest, htext, rfl, hrest⟩ := List.zipIdx_eq_append_iff.1 heq
    obtain ⟨line, after, rfl, hk, -⟩ := List.zipIdx_eq_cons_iff.1 hrest.symm
    cases hk
    exact ⟨before, line, after, htext, forall_mem_zipIdx.1 hbefore, not_or.2 ⟨hblank, hformat⟩, Nat.add_comm ..⟩
  · rintro ⟨before, line, after, htext, hbefore, hline, rfl⟩
    obtain ⟨hblank, hformat⟩ := not_or.1 hline
    have hfault : ∃ e, readLine (line, 1 + before.length) = .error e ∧ e.line = before.length + 1 :=
      exists_readLine_error_iff.2 ⟨hformat, Nat.add_comm ..⟩
    obtain ⟨e, he, hnumber⟩ := hfault
    refine ⟨e, ⟨before.zipIdx 1, _, after.zipIdx (1 + before.length + 1), ?_, hblank, he, ?_⟩, hnumber⟩
    · rw [htext, List.zipIdx_append, List.zipIdx_cons]
    · exact forall_mem_zipIdx.2 hbefore

/-- What a text gives: an error for a line, the error for the whole text, or a grammar. -/
theorem ofText_cases (text : String) :
    (∃ e, (numberedLines text).mapM readLine = .error e ∧ ofText text = .error e) ∨
    (numberedLines text = [] ∧ ofText text = .error .emptyGrammar) ∨
    (numberedLines text ≠ [] ∧ ∃ ds, (numberedLines text).mapM readLine = .ok ds ∧ ofText text = .ok (ofDefinitions ds)) := by
  unfold ofText
  cases hnil : numberedLines text with
  | nil => exact .inr (.inl ⟨rfl, rfl⟩)
  | cons line rest =>
    cases hds : (line :: rest).mapM readLine with
    | error e => exact .inl ⟨e, rfl, rfl⟩
    | ok ds =>
      refine .inr (.inr ⟨by simp, ds, rfl, if_neg fun hempty => ?_⟩)
      rw [List.mapM_cons, List.isEmpty_iff.1 hempty] at hds
      cases hline : readLine line <;> cases hrest : rest.mapM readLine <;>
        simp [hline, hrest, bind, Except.bind, pure, Except.pure] at hds

/-- A text gives a grammar when it has a line that is not blank and all such lines have the format. Otherwise the first of them
that has not is blamed, by its number among all lines; the error for the whole text, on line zero, is for blank texts only. -/
theorem ofText_format (text : String) :
    ((∃ g, ofText text = .ok g) ↔ (∃ line ∈ Text.lines text.toList, ¬ IsBlankLine line) ∧
      ∀ line ∈ Text.lines text.toList, IsBlankLine line ∨ Definition.HasFormat line) ∧
    (∀ number, (∃ e, ofText text = .error e ∧ e.line = number) ↔
      FirstFault (Text.lines text.toList) number ∨ number = 0 ∧ ∀ line ∈ Text.lines text.toList, IsBlankLine line) ∧
    (ofText text = .error .emptyGrammar ↔ ∀ line ∈ Text.lines text.toList, IsBlankLine line) := by
  have hfault : ∀ {number}, FirstFault (Text.lines text.toList) number → number ≠ 0 ∧
      ∃ line ∈ Text.lines text.toList, ¬ (IsBlankLine line ∨ Definition.HasFormat line) := by
    rintro _ ⟨before, line, after, htext, -, hline, rfl⟩
    exact ⟨Nat.succ_ne_zero _, line, by simp [htext], hline⟩
  have hread : ∀ {number}, (∀ line ∈ Text.lines text.toList, IsBlankLine line ∨ Definition.HasFormat line) →
      ¬ FirstFault (Text.lines text.toList) number := by
    intro number hall h
    obtain ⟨line, hline, hbad⟩ := (hfault h).2
    exact hbad (hall line hline)
  rcases ofText_cases text with ⟨e, hmapM, htext⟩ | ⟨hnil, htext⟩ | ⟨hne, ds, hmapM, htext⟩
  · have hfirst := exists_mapM_readLine_error_iff.1 ⟨e, hmapM, rfl⟩
    obtain ⟨hline, line, hmem, hbad⟩ := hfault hfirst
    have hblank : ¬ ∀ line ∈ Text.lines text.toList, IsBlankLine line := fun h => hbad (.inl (h line hmem))
    rw [htext]
    refine ⟨iff_of_false nofun fun h => hbad (h.2 line hmem), fun number => ?_, iff_of_false ?_ hblank⟩
    · rw [← exists_mapM_readLine_error_iff, hmapM]
      simp [hblank]
    · rintro ⟨⟩
      exact hline rfl
  · have hblank := numberedLines_eq_nil_iff.1 hnil
    rw [htext]
    refine ⟨iff_of_false nofun fun ⟨⟨line, hmem, hline⟩, _⟩ => hline (hblank line hmem), fun number => ?_,
      iff_of_true rfl hblank⟩
    simp only [Except.error.injEq, exists_eq_left', LoadError.line, hread fun line hmem => .inl (hblank line hmem)]
    simpa [eq_comm] using fun _ => hblank
  · have hall := exists_mapM_readLine_iff.1 ⟨ds, hmapM⟩
    have hblank := mt numberedLines_eq_nil_iff.2 hne
    rw [htext]
    refine ⟨iff_of_true ⟨_, rfl⟩ ⟨by simpa using hblank, hall⟩, fun number => ?_, iff_of_false nofun hblank⟩
    simp [hread hall, hblank]

end Grammar

end TopDown
