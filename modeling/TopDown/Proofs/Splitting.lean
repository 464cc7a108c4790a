import TopDown.Proofs.Format
import TopDown.Proofs.Lines

/-!
# Alternatives on lines of their own

A line can be cut at a bar: what stands after the bar goes to a line of its own, behind the same head. The bar has to be one that
the reader takes for a bar, which it is when what stands before it can be read alone. In the two lines the reader then finds the
same pieces as in one, and the head has been met when it is read again, so no name gets another number and the alternatives of
the head follow each other as before. What cannot be read is blamed for the same reason.

Main statements: `Definition.ofLine_bar` (one line), `Grammar.readLines_cut` (several lines), `Grammar.ofDefinitions_cut` (what
they say), `Grammar.ofText_cut`.
-/

namespace TopDown

open Text (lines trim IsClosed)

/-! ## One line -/

namespace Definition

/-- A line with this head and with this after the sign. -/
def lineOf (head body : List Char) : List Char := head ++ ':' :: ':' :: '=' :: body

/-- A line goes on as what stands after its sign does. -/
theorem lineOf_append (head body more : List Char) : lineOf head (body ++ more) = lineOf head body ++ more := by
  simp [lineOf]

/-- What stands before a line belongs to its head. -/
theorem append_lineOf (own head body : List Char) : own ++ lineOf head body = lineOf (own ++ head) body :=
  (List.append_assoc own head _).symm

/-- A line holds no line feed where its parts hold none. -/
theorem newline_not_mem_lineOf {head body : List Char} (hhead : '\n' ∉ head) (hbody : '\n' ∉ body) : '\n' ∉ lineOf head body := by
  simp [lineOf, hhead, hbody]

/-- What comes after a bar is read as if it stood alone, if what comes before it can be. -/
theorem scan_append_bar {xs : List Char} {ts : List Token} (h : scan .body xs = .ok ts) (ys : List Char) :
    scan .body (xs ++ '|' :: ys) = (fun us => ts ++ .bar :: us) <$> scan .body ys := by
  obtain ⟨hlegal, rfl⟩ := scan_eq_ok_iff.1 h
  rw [scan_tokens_append hlegal, scan, if_pos rfl]
  cases scan .body ys <;> rfl

/-- The alternatives on both sides of a bar. -/
theorem splitAtBars_append_bar (ts us : List Token) : splitAtBars (ts ++ .bar :: us) = splitAtBars ts ++ splitAtBars us := by
  induction ts with
  | nil => rfl
  | cons t ts ih =>
    rw [List.cons_append]
    cases t with
    | bar => rw [splitAtBars, splitAtBars, ih, List.cons_append]
    | atom a =>
      obtain ⟨first, others, hsplit⟩ := List.exists_cons_of_ne_nil (splitAtBars_ne_nil ts)
      rw [splitAtBars, splitAtBars, ih, hsplit, List.cons_append, consAtom, consAtom, List.cons_append]

/-- The head of a line is read before what stands after the sign. -/
theorem ofLine_lineOf {head : List Char} (h : ¬[':', ':', '='] <:+: head) (body : List Char) :
    ofLine (lineOf head body) = do
      let name ← readHead (trim head)
      let ts ← scan .body body
      return ⟨name, splitAtBars ts⟩ := by
  rw [ofLine, lineOf, splitLine?_sign h]

/-- A line that is cut at a bar says in two lines what it said in one, or the first of them that cannot be read has its fault. -/
theorem ofLine_bar {head xs : List Char} (hhead : ¬[':', ':', '='] <:+: head) (hxs : ∃ ts, scan .body xs = .ok ts)
    (ys : List Char) :
    (∃ fault, ofLine (lineOf head (xs ++ '|' :: ys)) = .error fault ∧
      (ofLine (lineOf head xs) = .error fault ∨
        (∃ d, ofLine (lineOf head xs) = .ok d) ∧ ofLine (lineOf head ys) = .error fault)) ∨
    ∃ name before after, ofLine (lineOf head (xs ++ '|' :: ys)) = .ok ⟨name, before ++ after⟩ ∧
      ofLine (lineOf head xs) = .ok ⟨name, before⟩ ∧ ofLine (lineOf head ys) = .ok ⟨name, after⟩ := by
  obtain ⟨ts, hts⟩ := hxs
  simp only [ofLine_lineOf hhead, scan_append_bar hts, hts]
  cases readHead (trim head) with
  | error fault => exact .inl ⟨fault, rfl, .inl rfl⟩
  | ok name =>
    cases scan .body ys with
    | error fault => exact .inl ⟨fault, rfl, .inr ⟨⟨_, rfl⟩, rfl⟩⟩
    | ok us =>
      refine .inr ⟨name, splitAtBars ts, splitAtBars us, ?_, rfl, rfl⟩
      rw [← splitAtBars_append_bar]
      rfl

end Definition

namespace Grammar

open Definition (lineOf lineOf_append append_lineOf newline_not_mem_lineOf)

/-! ## Several lines -/

/-- What lines say, one after the other, or the fault of the first that cannot be read. Blank lines say nothing. -/
def readLines (ls : List (List Char)) : Except Fault (List Definition) :=
  (ls.filter fun line => !(trim line).isEmpty).mapM Definition.ofLine

/-- What lines say that stand below others comes after what those say. -/
theorem readLines_append (ls more : List (List Char)) :
    readLines (ls ++ more) = do
      let before ← readLines ls
      let after ← readLines more
      return before ++ after := by
  rw [readLines, List.filter_append, List.mapM_append]
  rfl

/-- A line with a sign is not blank. -/
theorem readLines_lineOf (head body : List Char) :
    readLines [lineOf head body] = (fun d => [d]) <$> Definition.ofLine (lineOf head body) := by
  have hblank : ¬IsBlankLine (lineOf head body) := by
    intro h
    exact absurd (h ':' (by simp [lineOf])) (by decide)
  have hkeep : ∀ line ∈ [lineOf head body], (!(trim line).isEmpty) = true := by
    intro line hline
    rw [List.mem_singleton.1 hline]
    exact not_isEmpty_trim_iff.2 hblank
  rw [readLines, List.filter_eq_self.2 hkeep, List.mapM_cons]
  cases Definition.ofLine (lineOf head body) <;> rfl

/-- Lines without a sign say nothing if they are blank, and otherwise the first that is not lacks its definition. -/
theorem readLines_of_no_sign {ls : List (List Char)} (h : ∀ line ∈ ls, ¬[':', ':', '='] <:+: line) :
    readLines ls = .ok [] ∨ readLines ls = .error .missingDefinition := by
  unfold readLines
  cases hread : ls.filter fun line => !(trim line).isEmpty with
  | nil => exact .inl rfl
  | cons line rest =>
    have hline : line ∈ ls := List.mem_of_mem_filter (hread ▸ List.mem_cons_self)
    have hsplit : Definition.splitLine? line = none := by
      cases hcut : Definition.splitLine? line with
      | none => rfl
      | some parts =>
        have hparts := (Definition.of_splitLine?_eq_some hcut).1
        exact absurd ⟨parts.1, parts.2, by simp [hparts]⟩ (h line hline)
    rw [List.mapM_cons, Definition.ofLine, hsplit]
    exact .inr rfl

/-- Several lines, one of which is cut at a bar. The lines `own` belong to what is taken for its head, and so they are repeated;
they define nothing. -/
theorem readLines_cut {own : List (List Char)} {head xs : List Char} (hown : ∀ line ∈ own, ¬[':', ':', '='] <:+: line)
    (hhead : ¬[':', ':', '='] <:+: head) (hxs : ∃ ts, Definition.scan .body xs = .ok ts) (ys : List Char)
    (above below : List (List Char)) :
    (∃ fault, readLines (above ++ own ++ [lineOf head (xs ++ '|' :: ys)] ++ below) = .error fault ∧
      readLines (above ++ own ++ [lineOf head xs] ++ own ++ [lineOf head ys] ++ below) = .error fault) ∨
    ∃ before name these those after,
      readLines (above ++ own ++ [lineOf head (xs ++ '|' :: ys)] ++ below) = .ok (before ++ ⟨name, these ++ those⟩ :: after) ∧
      readLines (above ++ own ++ [lineOf head xs] ++ own ++ [lineOf head ys] ++ below) =
        .ok (before ++ ⟨name, these⟩ :: ⟨name, those⟩ :: after) := by
  simp only [readLines_append, readLines_lineOf]
  cases readLines above with
  | error fault => exact .inl ⟨fault, rfl, rfl⟩
  | ok before =>
    rcases readLines_of_no_sign hown with hnothing | hmissing
    · rw [hnothing]
      rcases Definition.ofLine_bar hhead hxs ys with ⟨fault, hone, hfirst | ⟨⟨d, hfirst⟩, hsecond⟩⟩ |
        ⟨name, these, those, hone, hfirst, hsecond⟩
      · rw [hone, hfirst]
        exact .inl ⟨fault, rfl, rfl⟩
      · rw [hone, hfirst, hsecond]
        exact .inl ⟨fault, rfl, rfl⟩
      · rw [hone, hfirst, hsecond]
        cases readLines below with
        | error fault => exact .inl ⟨fault, rfl, rfl⟩
        | ok after =>
          refine .inr ⟨before, name, these, those, after, ?_, ?_⟩
          · simp [bind, Except.bind, pure, Except.pure]
          · simp [bind, Except.bind, pure, Except.pure]
    · rw [hmissing]
      exact .inl ⟨.missingDefinition, rfl, rfl⟩

/-! ## What the lines say -/

/-- A head that is repeated at once has been met. -/
theorem namesOf_cut (before : List Definition) (name : String) (these those : List (List Atom)) (after : List Definition) :
    namesOf (before ++ ⟨name, these⟩ :: ⟨name, those⟩ :: after) = namesOf (before ++ ⟨name, these ++ those⟩ :: after) := by
  have hmet : name ∈ before.flatMap Definition.names ++ Definition.names ⟨name, these⟩ :=
    List.mem_append_right _ List.mem_cons_self
  have hdrop := distinct_append_cons hmet (those.flatten.filterMap Atom.reference? ++ after.flatMap Definition.names)
  simpa [namesOf, Definition.names, List.append_assoc] using hdrop

/-- The alternatives of a head follow each other as they did. -/
theorem productionsFor_cut (names : List String) (before : List Definition) (head : String) (these those : List (List Atom))
    (after : List Definition) (name : String) :
    productionsFor names (before ++ ⟨head, these⟩ :: ⟨head, those⟩ :: after) name =
      productionsFor names (before ++ ⟨head, these ++ those⟩ :: after) name := by
  simp only [productionsFor, List.filter_append, List.flatMap_append]
  by_cases h : head = name <;> simp [h]

/-- A definition that is cut into two gives the same grammar. -/
theorem ofDefinitions_cut (before : List Definition) (name : String) (these those : List (List Atom)) (after : List Definition) :
    ofDefinitions (before ++ ⟨name, these⟩ :: ⟨name, those⟩ :: after) =
      ofDefinitions (before ++ ⟨name, these ++ those⟩ :: after) := by
  unfold ofDefinitions
  simp only [namesOf_cut, productionsFor_cut]

/-- Lines that are numbered are read as the lines, but a fault is blamed on a number. -/
theorem mapM_readLine_zipIdx (ls : List (List Char)) (k : Nat) :
    (∃ ds, readLines ls = .ok ds ∧
      ((ls.zipIdx k).filter fun line => !(trim line.1).isEmpty).mapM readLine = .ok ds) ∨
    ∃ fault number, readLines ls = .error fault ∧
      ((ls.zipIdx k).filter fun line => !(trim line.1).isEmpty).mapM readLine = .error (.atLine number fault) := by
  induction ls generalizing k with
  | nil => exact .inl ⟨[], rfl, rfl⟩
  | cons line ls ih =>
    have ih := ih (k + 1)
    rw [readLines, List.zipIdx_cons, List.filter_cons, List.filter_cons]
    simp only
    split
    · rw [List.mapM_cons, List.mapM_cons, readLine, ← readLines]
      cases Definition.ofLine line with
      | error fault => exact .inr ⟨fault, k, rfl, rfl⟩
      | ok d =>
        rcases ih with ⟨ds, hread, hnumbered⟩ | ⟨fault, number, hread, hnumbered⟩
        · rw [hread, hnumbered]
          exact .inl ⟨d :: ds, rfl, rfl⟩
        · rw [hread, hnumbered]
          exact .inr ⟨fault, number, rfl, rfl⟩
    · exact ih

/-- A text gives the grammar of what its lines say. -/
theorem ofText_of_readLines_ok {text : String} {ds : List Definition} (h : readLines (lines text.toList) = .ok ds)
    (hne : ds ≠ []) : ofText text = .ok (ofDefinitions ds) := by
  rcases mapM_readLine_zipIdx (lines text.toList) 1 with ⟨ds', hread, hnumbered⟩ | ⟨fault, number, hread, -⟩
  · rw [h] at hread
    cases hread
    rw [ofText, numberedLines, hnumbered]
    exact if_neg (by simpa using hne)
  · rw [h] at hread
    cases hread

/-- A text is blamed for the fault of its lines. -/
theorem ofText_of_readLines_error {text : String} {fault : Fault} (h : readLines (lines text.toList) = .error fault) :
    ∃ number, ofText text = .error (.atLine number fault) := by
  rcases mapM_readLine_zipIdx (lines text.toList) 1 with ⟨ds, hread, -⟩ | ⟨fault', number, hread, hnumbered⟩
  · rw [h] at hread
    cases hread
  · rw [h] at hread
    cases hread
    refine ⟨number, ?_⟩
    rw [ofText, numberedLines, hnumbered]
    rfl

/-! ## The whole text -/

/-- The lines of a text before and after one of them is cut at a bar. What is closed in the head is the lines `own`. -/
theorem lines_cut {above own head xs ys rest : List Char} (habove : IsClosed above) (hown : IsClosed own) (hhead : '\n' ∉ head)
    (hxs : '\n' ∉ xs) (hreturn : xs.getLast? ≠ some '\r') (hys : '\n' ∉ ys) (hrest : rest = [] ∨ ∃ more, rest = '\n' :: more) :
    ∃ ys' below,
      lines (above ++ (lineOf (own ++ head) (xs ++ '|' :: ys) ++ rest)) =
        lines above ++ lines own ++ [lineOf head (xs ++ '|' :: ys')] ++ below ∧
      lines (above ++ (lineOf (own ++ head) xs ++ '\n' :: (lineOf (own ++ head) ys ++ rest))) =
        lines above ++ lines own ++ [lineOf head xs] ++ lines own ++ [lineOf head ys'] ++ below := by
  obtain ⟨ys', below, hlines⟩ := Text.exists_lines_append hys hrest
  have hone : lines (lineOf head (xs ++ '|' :: ys) ++ rest) = lineOf head (xs ++ '|' :: ys') :: below := by
    have hfront : (lineOf head (xs ++ ['|'])).getLast? ≠ some '\r' := by
      rw [lineOf_append, List.getLast?_concat]
      decide
    have hlines := hlines (lineOf head (xs ++ ['|'])) (by simp [lineOf]) (newline_not_mem_lineOf hhead (by simp [hxs])) hfront
    simpa [lineOf] using hlines
  have hfirst : dropFinal '\r' (lineOf head xs) = lineOf head xs := by
    have hsign : (lineOf head []).getLast? ≠ some '\r' := by simp [lineOf]
    rw [← List.nil_append xs, lineOf_append, dropFinal_append hsign, dropFinal_eq_self hreturn]
  have hsecond : lines (lineOf head ys ++ rest) = lineOf head ys' :: below := by
    have hlines := hlines (lineOf head []) (by simp [lineOf]) (newline_not_mem_lineOf hhead List.not_mem_nil) (by simp [lineOf])
    simpa [lineOf] using hlines
  refine ⟨ys', below, ?_, ?_⟩
  · rw [← append_lineOf, List.append_assoc, Text.lines_append_of_isClosed habove, Text.lines_append_of_isClosed hown, hone]
    simp
  · rw [← append_lineOf, ← append_lineOf, List.append_assoc, List.append_assoc, Text.lines_append_of_isClosed habove,
      Text.lines_append_of_isClosed hown, Text.lines_append (newline_not_mem_lineOf hhead hxs), hfirst,
      Text.lines_append_of_isClosed hown, hsecond]
    simp

/-- A line can be cut at a bar if what stands before the bar can be read alone: with the head repeated, the alternatives give the
same grammar on two lines as on one, or the same fault keeps both texts from giving one. -/
theorem ofText_cut (above below : List String) (head xs ys : String) (hhead : ¬[':', ':', '='] <:+: head.toList)
    (hxs : ∃ ts, Definition.scan .body xs.toList = .ok ts) (hreturn : xs.toList.getLast? ≠ some '\r') (hxsline : '\n' ∉ xs.toList)
    (hysline : '\n' ∉ ys.toList) :
    (∃ g, ofText ("\n".intercalate (above ++ [head ++ "::=" ++ xs ++ "|" ++ ys] ++ below)) = .ok g ∧
      ofText ("\n".intercalate (above ++ [head ++ "::=" ++ xs, head ++ "::=" ++ ys] ++ below)) = .ok g) ∨
    ∃ fault number number',
      ofText ("\n".intercalate (above ++ [head ++ "::=" ++ xs ++ "|" ++ ys] ++ below)) = .error (.atLine number fault) ∧
      ofText ("\n".intercalate (above ++ [head ++ "::=" ++ xs, head ++ "::=" ++ ys] ++ below)) =
        .error (.atLine number' fault) := by
  obtain ⟨own, last, hparts, hown, hlast⟩ := Text.exists_closed_append head.toList
  have hownsign : ∀ line ∈ lines own, ¬[':', ':', '='] <:+: line := by
    intro line hline hin
    exact hhead (hparts ▸ (hin.trans (Text.infix_of_mem_lines hline)).trans (List.prefix_append own last).isInfix)
  have hlastsign : ¬[':', ':', '='] <:+: last := by
    intro hin
    exact hhead (hparts ▸ hin.trans (List.suffix_append own last).isInfix)
  have hrest : ((below.map String.toList).flatMap fun l => '\n' :: l) = [] ∨
      ∃ more, ((below.map String.toList).flatMap fun l => '\n' :: l) = '\n' :: more := by
    cases below with
    | nil => exact .inl rfl
    | cons l below => exact .inr ⟨_, rfl⟩
  obtain ⟨ys', rest, hone, htwo⟩ :=
    lines_cut (Text.isClosed_unlines (above.map String.toList)) hown hlast hxsline hreturn hysline hrest
  have hjoined : ("\n".intercalate (above ++ [head ++ "::=" ++ xs ++ "|" ++ ys] ++ below)).toList =
      ((above.map String.toList).flatMap fun l => l ++ ['\n']) ++
        (lineOf (own ++ last) (xs.toList ++ '|' :: ys.toList) ++ (below.map String.toList).flatMap fun l => '\n' :: l) := by
    simp [String.toList_intercalate, Text.intercalate_append_cons, lineOf, hparts]
  have hcut : ("\n".intercalate (above ++ [head ++ "::=" ++ xs, head ++ "::=" ++ ys] ++ below)).toList =
      ((above.map String.toList).flatMap fun l => l ++ ['\n']) ++ (lineOf (own ++ last) xs.toList ++
        '\n' :: (lineOf (own ++ last) ys.toList ++ (below.map String.toList).flatMap fun l => '\n' :: l)) := by
    simp [String.toList_intercalate, Text.intercalate_append_cons, lineOf, hparts]
  rw [← hjoined] at hone
  rw [← hcut] at htwo
  rcases readLines_cut hownsign hlastsign hxs ys' (lines ((above.map String.toList).flatMap fun l => l ++ ['\n'])) rest with
    ⟨fault, hread, hread'⟩ | ⟨before, name, these, those, after, hread, hread'⟩
  · obtain ⟨number, hblamed⟩ := ofText_of_readLines_error (hone ▸ hread)
    obtain ⟨number', hblamed'⟩ := ofText_of_readLines_error (htwo ▸ hread')
    exact .inr ⟨fault, number, number', hblamed, hblamed'⟩
  · refine .inl ⟨_, ofText_of_readLines_ok (hone ▸ hread) (by simp), ?_⟩
    rw [ofText_of_readLines_ok (htwo ▸ hread') (by simp), ofDefinitions_cut]

/-- An escaped bar and a bar in a name are no bars to cut at; the head is repeated with the blanks around it. -/
theorem ofText_cut_escaped :
    ∃ g, ofText ("\n".intercalate ["<S>::=<A>x", "", " <A> ::=a\\|<b|c>|<S>y", "<S>::=d\r", "<C>::="]) = .ok g ∧
      ofText ("\n".intercalate ["<S>::=<A>x", "", " <A> ::=a\\|<b|c>", " <A> ::=<S>y", "<S>::=d\r", "<C>::="]) = .ok g ∧
      g.productionsOf 1 = [[.terminal 'a', .terminal '|', .nonterminal 2], [.nonterminal 0, .terminal 'y']] := by
  have hone : " <A> " ++ "::=" ++ "a\\|<b|c>" ++ "|" ++ "<S>y" = " <A> ::=a\\|<b|c>|<S>y" := by decide
  have hfirst : " <A> " ++ "::=" ++ "a\\|<b|c>" = " <A> ::=a\\|<b|c>" := by decide
  have hsecond : " <A> " ++ "::=" ++ "<S>y" = " <A> ::=<S>y" := by decide
  have hproductions : (ofText ("\n".intercalate ["<S>::=<A>x", "", " <A> ::=a\\|<b|c>|<S>y", "<S>::=d\r", "<C>::="])).toOption.map
      (productionsOf · 1) = some [[.terminal 'a', .terminal '|', .nonterminal 2], [.nonterminal 0, .terminal 'y']] := by decide
  rcases ofText_cut ["<S>::=<A>x", ""] ["<S>::=d\r", "<C>::="] " <A> " "a\\|<b|c>" "<S>y" (by decide) ⟨_, rfl⟩ (by decide)
    (by decide) (by decide) with ⟨g, h, h'⟩ | ⟨fault, number, number', h, h'⟩
  · rw [hone] at h
    rw [hfirst, hsecond] at h'
    refine ⟨g, h, h', ?_⟩
    exact Option.some.inj ((congrArg (fun r => r.toOption.map (productionsOf · 1)) h).symm.trans hproductions)
  · cases h

end Grammar

end TopDown
