import Mathlib.Data.List.ModifyLast
import TopDown.Proofs.Reading
import TopDown.Text.Lines

/-!
# Lines that were written one below the other

Lines that are each ended by a line feed are found again, but for a carriage return at the end of one of them: it is taken for a
part of the line's end. A definition has such a line when its last alternative ends with that character, and what is read then
is the definition without it. A text that ends with a line feed is closed: what comes after it has lines of its own.

Main statements: `Text.lines_unlines`, `Text.lines_append_of_isClosed` and `Definition.text_dropReturn`.
-/

namespace TopDown

/-- A list without its last member, if this is `a`. -/
def dropFinal {α : Type} [DecidableEq α] (a : α) (l : List α) : List α := if l.getLast? = some a then l.dropLast else l

section DropFinal

variable {α : Type} [DecidableEq α] {a : α}

/-- A last member is dropped when it is the one to be dropped. -/
theorem dropFinal_concat (l : List α) (b : α) : dropFinal a (l ++ [b]) = if b = a then l else l ++ [b] := by
  unfold dropFinal
  rw [List.getLast?_concat, List.dropLast_concat]
  simp only [Option.some.injEq]

theorem dropFinal_eq_self {l : List α} (h : l.getLast? ≠ some a) : dropFinal a l = l := if_neg h

/-- What stands before a list is left alone, unless the list is empty and the member to be dropped comes last before it. -/
theorem dropFinal_append {before : List α} (h : before.getLast? ≠ some a) (l : List α) :
    dropFinal a (before ++ l) = before ++ dropFinal a l := by
  rcases List.eq_nil_or_concat' l with rfl | ⟨l, b, rfl⟩
  · rw [List.append_nil, dropFinal_eq_self h]
    exact (List.append_nil before).symm
  · rw [← List.append_assoc, dropFinal_concat, dropFinal_concat]
    split
    · rfl
    · exact List.append_assoc before l [b]

/-- What is left without a last member stands at the beginning of the list. -/
theorem dropFinal_prefix_self (l : List α) : dropFinal a l <+: l := by
  unfold dropFinal
  split
  · exact List.dropLast_prefix l
  · exact List.prefix_rfl

/-- Dropping a last member changes a list that has it. -/
theorem dropFinal_ne_self {l : List α} (h : l.getLast? = some a) : dropFinal a l ≠ l := by
  obtain ⟨l, b, rfl⟩ := (List.eq_nil_or_concat' l).resolve_left fun hnil => by simp [hnil] at h
  rw [dropFinal, if_pos h, List.dropLast_concat]
  simp

end DropFinal

namespace Text

/-- A character that ends no line joins the line behind it. -/
theorem lines_cons {c : Char} {cs : List Char} (hc : c ≠ '\n') (hreturn : c = '\r' → cs.head? ≠ some '\n') :
    lines (c :: cs) = consLine c (lines cs) := by
  rw [lines]
  · exact hc
  · rintro cs' rfl rfl
    exact hreturn rfl rfl

/-- A line is read up to the line feed that ends it. -/
theorem lines_append {line rest : List Char} (h : '\n' ∉ line) :
    lines (line ++ '\n' :: rest) = dropFinal '\r' line :: lines rest := by
  induction line with
  | nil => simp [lines, dropFinal]
  | cons c line ih =>
    simp only [List.mem_cons, not_or] at h
    obtain ⟨hc, hline⟩ := h
    cases line with
    | nil =>
      by_cases hreturn : c = '\r'
      · subst hreturn
        simp [lines, dropFinal]
      · rw [List.singleton_append, lines_cons (Ne.symm hc) (fun h => absurd h hreturn), lines]
        simp [consLine, dropFinal, hreturn]
    | cons d line =>
      have hd : d ≠ '\n' := fun he => hline (he ▸ List.mem_cons_self)
      rw [List.cons_append, lines_cons (Ne.symm hc) (by simp [hd]), ih hline, consLine]
      rcases List.eq_nil_or_concat' (d :: line) with hnil | ⟨init, last, hconcat⟩
      · cases hnil
      · rw [hconcat, ← List.cons_append, dropFinal_concat, dropFinal_concat]
        split <;> rfl

/-- A text is one line, or it is a line that a line feed ends and the text below it. -/
@[elab_as_elim]
theorem line_induction {motive : List Char → Prop} (last : ∀ line, '\n' ∉ line → motive line)
    (more : ∀ line rest, '\n' ∉ line → motive rest → motive (line ++ '\n' :: rest)) (cs : List Char) : motive cs := by
  by_cases hmem : '\n' ∈ cs
  · obtain ⟨line, rest, hcs, hline⟩ := List.eq_append_cons_of_mem hmem
    have hlt : rest.length < cs.length := by
      rw [hcs, List.length_append, List.length_cons]
      omega
    rw [hcs]
    exact more line rest hline (line_induction last more rest)
  · exact last cs hmem
termination_by cs.length

/-- Lines that were ended by line feeds are found again, without a carriage return at their end. -/
theorem lines_unlines {ls : List (List Char)} (h : ∀ line ∈ ls, '\n' ∉ line) :
    lines (ls.flatMap fun line => line ++ ['\n']) = ls.map (dropFinal '\r') := by
  induction ls with
  | nil => rfl
  | cons line ls ih =>
    rw [List.flatMap_cons, List.append_assoc, List.singleton_append, lines_append (h line List.mem_cons_self),
      ih fun l hl => h l (List.mem_cons_of_mem _ hl), List.map_cons]

/-- What follows the last line feed is the last line. -/
theorem lines_of_not_mem {line : List Char} (hne : line ≠ []) (h : '\n' ∉ line) : lines line = [line] := by
  induction line with
  | nil => exact absurd rfl hne
  | cons c line ih =>
    simp only [List.mem_cons, not_or] at h
    obtain ⟨hc, hline⟩ := h
    cases line with
    | nil => rw [lines_cons (Ne.symm hc) (by simp), lines, consLine]
    | cons d line =>
      have hd : d ≠ '\n' := fun he => hline (he ▸ List.mem_cons_self)
      rw [lines_cons (Ne.symm hc) (by simp [hd]), ih (List.cons_ne_nil d line) hline, consLine]

/-- A text that ends with a line feed, if it is not empty: nothing that comes after it joins one of its lines. -/
def IsClosed (cs : List Char) : Prop := cs = [] ∨ ∃ before, cs = before ++ ['\n']

/-- Lines that are each ended by a line feed are closed. -/
theorem isClosed_unlines (ls : List (List Char)) : IsClosed (ls.flatMap fun line => line ++ ['\n']) := by
  rcases List.eq_nil_or_concat' ls with rfl | ⟨ls, last, rfl⟩
  · exact .inl rfl
  · refine .inr ⟨(ls.flatMap fun line => line ++ ['\n']) ++ last, ?_⟩
    rw [List.flatMap_append, List.flatMap_singleton, List.append_assoc]

/-- A text is closed but for its last line. -/
theorem exists_closed_append (cs : List Char) : ∃ above line, cs = above ++ line ∧ IsClosed above ∧ '\n' ∉ line := by
  induction cs using line_induction with
  | last line hline => exact ⟨[], line, rfl, .inl rfl, hline⟩
  | more first rest hfirst ih =>
    obtain ⟨above, line, rfl, habove, hline⟩ := ih
    refine ⟨first ++ '\n' :: above, line, by simp, .inr ?_, hline⟩
    rcases habove with rfl | ⟨before, rfl⟩
    · exact ⟨first, rfl⟩
    · exact ⟨first ++ '\n' :: before, by simp⟩

/-- Nothing that comes after a line feed changes the lines before it. -/
theorem lines_newline_append (before rest : List Char) :
    lines (before ++ '\n' :: rest) = lines (before ++ ['\n']) ++ lines rest := by
  induction before using line_induction with
  | last line hline =>
    rw [lines_append hline, lines_append hline]
    rfl
  | more line below hline ih =>
    rw [List.append_assoc, List.append_assoc, List.cons_append, List.cons_append, lines_append hline, lines_append hline, ih]
    rfl

/-- The lines of what comes after a closed text come after its own. -/
theorem lines_append_of_isClosed {cs : List Char} (h : IsClosed cs) (rest : List Char) :
    lines (cs ++ rest) = lines cs ++ lines rest := by
  rcases h with rfl | ⟨before, rfl⟩
  · rfl
  · rw [List.append_assoc]
    exact lines_newline_append before rest

/-- Lines that are joined by line feeds: those before one of them are ended, those after it are begun. -/
theorem intercalate_append_cons (before : List (List Char)) (line : List Char) (after : List (List Char)) :
    ['\n'].intercalate (before ++ line :: after) =
      (before.flatMap fun l => l ++ ['\n']) ++ (line ++ after.flatMap fun l => '\n' :: l) := by
  have hafter : ['\n'].intercalate (line :: after) = line ++ after.flatMap fun l => '\n' :: l := by
    induction after generalizing line with
    | nil => simp
    | cons next after ih => rw [List.intercalate_cons_cons, ih next, List.flatMap_cons, List.append_assoc]; rfl
  induction before with
  | nil => exact hafter
  | cons first before ih =>
    have hne : before ++ line :: after ≠ [] := by simp
    obtain ⟨next, rest, hnext⟩ := List.exists_cons_of_ne_nil hne
    rw [hnext] at ih
    rw [List.cons_append, hnext, List.intercalate_cons_cons, ih, List.flatMap_cons, List.append_assoc _ _ (line ++ _)]

/-- How a line ends does not depend on how it begins. -/
theorem exists_lines_append {ending rest : List Char} (hending : '\n' ∉ ending)
    (hrest : rest = [] ∨ ∃ more, rest = '\n' :: more) :
    ∃ ending' below, ∀ front, front ≠ [] → '\n' ∉ front → front.getLast? ≠ some '\r' →
      lines (front ++ (ending ++ rest)) = (front ++ ending') :: below := by
  have hline : ∀ front, '\n' ∉ front → '\n' ∉ front ++ ending := by
    intro front hfront hmem
    exact (List.mem_append.1 hmem).elim hfront hending
  rcases hrest with rfl | ⟨more, rfl⟩
  · refine ⟨ending, [], fun front hne hfront _ => ?_⟩
    rw [List.append_nil]
    exact lines_of_not_mem (List.append_ne_nil_of_left_ne_nil hne ending) (hline front hfront)
  · refine ⟨dropFinal '\r' ending, lines more, fun front _ hfront hreturn => ?_⟩
    rw [← List.append_assoc, lines_append (hline front hfront), dropFinal_append hreturn]

/-- Where no line feed is, there is no other line. -/
theorem eq_of_mem_lines {cs line : List Char} (hcs : '\n' ∉ cs) (h : line ∈ lines cs) : line = cs := by
  by_cases hnil : cs = []
  · rw [hnil] at h
    cases h
  · rw [lines_of_not_mem hnil hcs] at h
    exact List.mem_singleton.1 h

/-- A line stands in its text. -/
theorem infix_of_mem_lines {cs line : List Char} (h : line ∈ lines cs) : line <:+: cs := by
  induction cs using line_induction with
  | last only honly =>
    rw [eq_of_mem_lines honly h]
  | more first rest hfirst ih =>
    rw [lines_append hfirst] at h
    rcases List.mem_cons.1 h with hline | h
    · rw [hline]
      exact ((dropFinal_prefix_self first).trans (List.prefix_append first _)).isInfix
    · exact (ih h).trans ((List.suffix_cons '\n' rest).trans (List.suffix_append first _)).isInfix

/-- No line holds a line feed. -/
theorem newline_not_mem_of_mem_lines {cs line : List Char} (h : line ∈ lines cs) : '\n' ∉ line := by
  induction cs using line_induction with
  | last only honly =>
    rwa [eq_of_mem_lines honly h]
  | more first rest hfirst ih =>
    rw [lines_append hfirst] at h
    rcases List.mem_cons.1 h with hline | h
    · rw [hline]
      exact fun hmem => hfirst ((dropFinal_prefix_self first).mem hmem)
    · exact ih h

end Text

namespace Definition

/-- Alternatives are written one after the other, with bars between them. -/
theorem bodyText_eq_intercalate (alternatives : List (List Atom)) :
    bodyText alternatives = ['|'].intercalate (alternatives.map (List.flatMap Atom.text)) := by
  have hatoms : ∀ atoms : List Atom, (atoms.map Token.atom).flatMap Token.text = atoms.flatMap Atom.text := by
    intro atoms
    rw [List.flatMap_map]
    rfl
  induction alternatives with
  | nil => rfl
  | cons atoms alternatives ih =>
    cases alternatives with
    | nil => simp [bodyText, joinBars, hatoms]
    | cons next alternatives =>
      simp only [bodyText, joinBars, List.map_cons, List.intercalate_cons_cons, List.flatMap_append, hatoms] at ih ⊢
      rw [ih]
      rfl

/-- Alternatives are written with a bar after each but the last. -/
theorem bodyText_concat (init : List (List Atom)) (last : List Atom) :
    bodyText (init ++ [last]) = (init.flatMap fun atoms => atoms.flatMap Atom.text ++ ['|']) ++ last.flatMap Atom.text := by
  rw [bodyText_eq_intercalate]
  induction init with
  | nil => simp
  | cons atoms init ih =>
    have hne : (init ++ [last]).map (List.flatMap Atom.text) ≠ [] := by simp
    obtain ⟨next, rest, hnext⟩ := List.exists_cons_of_ne_nil hne
    rw [hnext] at ih
    rw [List.cons_append, List.map_cons, hnext, List.intercalate_cons_cons, ih, List.flatMap_cons, List.append_assoc,
      List.append_assoc, List.append_assoc]

/-- The body holds a line feed when the text of an atom does. -/
theorem newline_not_mem_bodyText {alternatives : List (List Atom)} :
    '\n' ∉ bodyText alternatives ↔ ∀ atoms ∈ alternatives, ∀ a ∈ atoms, '\n' ∉ a.text := by
  simp only [bodyText, List.mem_flatMap, not_exists, not_and]
  constructor
  · exact fun h atoms hatoms a ha => h (.atom a) (mem_joinBars.2 ⟨atoms, hatoms, ha⟩)
  · exact fun h => forall_mem_joinBars (by simp [Token.text]) h

/-- A definition without a carriage return at the end of its last alternative. -/
def dropReturn (d : Definition) : Definition :=
  { d with alternatives := d.alternatives.modifyLast (dropFinal (.terminal '\r')) }

/-- Only the last alternative changes. -/
theorem dropReturn_of_alternatives {d : Definition} {init : List (List Atom)} {last : List Atom}
    (h : d.alternatives = init ++ [last]) :
    d.dropReturn.alternatives = init ++ [dropFinal (.terminal '\r') last] := by
  rw [dropReturn, h, List.modifyLast_concat]

/-- A carriage return is not a reference. -/
theorem references_dropReturn (d : Definition) : d.dropReturn.references = d.references := by
  rcases List.eq_nil_or_concat' d.alternatives with hnil | ⟨init, last, hd⟩
  · simp only [references, dropReturn, hnil]
    rfl
  · have hlast : (dropFinal (.terminal '\r') last).filterMap Atom.reference? = last.filterMap Atom.reference? := by
      rcases List.eq_nil_or_concat' last with rfl | ⟨atoms, a, rfl⟩
      · rfl
      · rw [dropFinal_concat]
        split
        · rename_i ha
          simp [ha, Atom.reference?]
        · rfl
    simp only [references, dropReturn_of_alternatives hd, hd, List.flatten_append, List.flatten_singleton,
      List.filterMap_append, hlast]

theorem names_dropReturn (d : Definition) : d.dropReturn.names = d.names :=
  congrArg (d.head :: ·) (references_dropReturn d)

/-- The names that can be read stay so. -/
theorem Bracketed.dropReturn {d : Definition} (h : d.Bracketed) : d.dropReturn.Bracketed := by
  refine ⟨h.head, ?_, references_dropReturn d ▸ h.reference⟩
  obtain ⟨init, last, hd⟩ := (List.eq_nil_or_concat' d.alternatives).resolve_left h.alternatives
  rw [dropReturn_of_alternatives hd]
  simp

/-- A definition that can be read still can without a carriage return at its end. -/
theorem Legal.dropReturn {d : Definition} (h : d.Legal) : d.dropReturn.Legal :=
  ⟨h.toBracketed.dropReturn, references_dropReturn d ▸ h.escape⟩

/-- What is written for atoms ends with a carriage return when the last of them is one. -/
theorem dropFinal_flatMap_text (atoms : List Atom) :
    dropFinal '\r' (atoms.flatMap Atom.text) = (dropFinal (.terminal '\r') atoms).flatMap Atom.text := by
  rcases List.eq_nil_or_concat' atoms with rfl | ⟨atoms, last, rfl⟩
  · rfl
  · rw [dropFinal_concat, List.flatMap_append, List.flatMap_singleton]
    have hlast : ∃ before c, last.text = before ++ [c] ∧ (c = '\r' ↔ last = .terminal '\r') ∧ (c = '\r' → before = []) := by
      cases last with
      | reference name => exact ⟨'<' :: name.toList, '>', rfl, by simp, by simp⟩
      | terminal c =>
        by_cases hc : Text.isReserved c = true
        · exact ⟨['\\'], c, if_pos hc, by simp, by rintro rfl; cases hc⟩
        · exact ⟨[], c, if_neg hc, by simp, fun _ => rfl⟩
    obtain ⟨before, c, htext, hreturn, hbefore⟩ := hlast
    rw [htext, ← List.append_assoc, dropFinal_concat, List.append_assoc, ← htext]
    by_cases hc : c = '\r'
    · rw [if_pos hc, if_pos (hreturn.1 hc), hbefore hc, List.append_nil]
    · rw [if_neg hc, if_neg fun h => hc (hreturn.2 h), List.flatMap_append, List.flatMap_singleton]

/-- The line of a definition loses a carriage return at its end when the last alternative does. -/
theorem text_dropReturn {d : Definition} (h : d.alternatives ≠ []) : d.dropReturn.text = dropFinal '\r' d.text := by
  obtain ⟨init, last, hd⟩ := (List.eq_nil_or_concat' d.alternatives).resolve_left h
  let before := '<' :: d.head.toList ++ ['>', ':', ':', '='] ++ init.flatMap fun atoms => atoms.flatMap Atom.text ++ ['|']
  have hbefore : before.getLast? ≠ some '\r' := by
    rcases List.eq_nil_or_concat' init with rfl | ⟨init, atoms, rfl⟩
    · simp [before, List.getLast?_append, List.getLast?_cons]
    · simp only [before, List.flatMap_append, List.flatMap_singleton, ← List.append_assoc, List.getLast?_concat]
      decide
  have hsplit : ∀ last : List Atom, '<' :: d.head.toList ++ '>' :: ':' :: ':' :: '=' :: bodyText (init ++ [last]) =
      before ++ last.flatMap Atom.text := by
    intro last
    simp [before, bodyText_concat]
  rw [text, text, dropReturn_of_alternatives hd, hd, hsplit, dropFinal_append hbefore, dropFinal_flatMap_text]
  exact hsplit _

end Definition

end TopDown
