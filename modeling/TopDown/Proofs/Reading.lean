import Mathlib.Data.List.Infix
import TopDown.Definition.Reader

/-!
# Reading what was written

A definition is written in one way: its name in angle brackets, `::=`, and its alternatives with bars between them, reserved
characters escaped. What is read from the part after `::=` is written just so, and what is written so is read back, as long as
the names can be read where they stand. They cannot hold angle brackets; the name before `::=` cannot hold `::=`, and a name
after it cannot hold a backslash.

Main statements: `scan_eq_ok_iff`, `ofLine_text` and `exists_of_ofLine`.
-/

namespace TopDown

open Text (isReserved isBlank trim)

/-! ## Names that can be read -/

/-- A name that can stand between angle brackets. -/
structure IsName (name : String) : Prop where
  nonempty : name.toList ≠ []
  opening : '<' ∉ name.toList
  closing : '>' ∉ name.toList

/-- A name that can be defined: it does not hold the sign that ends it. -/
structure IsHead (name : String) : Prop extends IsName name where
  sign : ¬[':', ':', '='] <:+: name.toList

/-- A name that an alternative can refer to. -/
structure IsReference (name : String) : Prop extends IsName name where
  escape : '\\' ∉ name.toList

/-- The name of an atom can stand between angle brackets. -/
def Atom.Bracketed : Atom → Prop
  | terminal _ => True
  | reference name => IsName name

/-- An atom can be read when its name can. -/
def Atom.Legal : Atom → Prop
  | terminal _ => True
  | reference name => IsReference name

/-- The names that the alternatives of a definition refer to. -/
def Definition.references (d : Definition) : List String := d.alternatives.flatten.filterMap Atom.reference?

/-- A definition that can be read but for backslashes in its references. There is always an alternative, if only an empty one. -/
structure Definition.Bracketed (d : Definition) : Prop where
  head : IsHead d.head
  alternatives : d.alternatives ≠ []
  reference : ∀ name ∈ d.references, IsName name

/-- A definition can be read when its names can. -/
structure Definition.Legal (d : Definition) : Prop extends Definition.Bracketed d where
  escape : ∀ name ∈ d.references, '\\' ∉ name.toList

/-- A name is a reference of a definition when an alternative refers to it. -/
theorem Definition.mem_references {d : Definition} {name : String} :
    name ∈ d.references ↔ ∃ atoms ∈ d.alternatives, .reference name ∈ atoms := by
  have hatom : ∀ a : Atom, a.reference? = some name ↔ a = .reference name := fun a => by
    cases a <;> simp [Atom.reference?]
  simp [references, hatom]

/-! ## How definitions are written -/

/-- An atom as it is written. -/
def Atom.text : Atom → List Char
  | terminal c => if isReserved c then ['\\', c] else [c]
  | reference name => '<' :: name.toList ++ ['>']

namespace Definition

/-- A piece as it is written. -/
def Token.text : Token → List Char
  | .atom a => a.text
  | .bar => ['|']

/-- The name of a piece can stand between angle brackets. -/
def Token.Bracketed : Token → Prop
  | .atom a => a.Bracketed
  | .bar => True

/-- A piece can be read when its name can. -/
def Token.Legal : Token → Prop
  | .atom a => a.Legal
  | .bar => True

/-- Alternatives as pieces, with bars between them. -/
def joinBars (alternatives : List (List Atom)) : List Token := [Token.bar].intercalate (alternatives.map (List.map Token.atom))

/-- Alternatives as they are written. -/
def bodyText (alternatives : List (List Atom)) : List Char := (joinBars alternatives).flatMap Token.text

/-- A definition as it is written, without the end of the line. -/
def text (d : Definition) : List Char := '<' :: d.head.toList ++ '>' :: ':' :: ':' :: '=' :: bodyText d.alternatives

/-! ## The part after the sign -/

/-- A name is read up to the bracket that closes it, unless a backslash comes first. -/
theorem scan_name {read name cs : List Char} (hopen : '<' ∉ name) (hclose : '>' ∉ name) (hne : read ++ name ≠ []) :
    scan (.name read) (name ++ '>' :: cs) = if '\\' ∈ name then .error .escapeInName
      else (Token.atom (.reference (String.ofList (read ++ name))) :: ·) <$> scan .body cs := by
  induction name generalizing read with
  | nil =>
    rw [List.append_nil] at hne ⊢
    simp [scan, hne]
  | cons c name ih =>
    simp only [List.mem_cons, not_or] at hopen hclose
    obtain ⟨hc, hopen⟩ := hopen
    obtain ⟨hc', hclose⟩ := hclose
    rw [List.cons_append, scan, if_neg (Ne.symm hc'), if_neg (Ne.symm hc)]
    by_cases hb : c = '\\'
    · simp [hb]
    · rw [if_neg hb, ih hopen hclose (by simp)]
      simp [Ne.symm hb]

/-- A name in angle brackets is read as a reference, unless it holds a backslash. -/
theorem scan_reference {name : String} (h : IsName name) (cs : List Char) :
    scan .body ((Atom.reference name).text ++ cs) = if '\\' ∈ name.toList then .error .escapeInName
      else (Token.atom (.reference name) :: ·) <$> scan .body cs := by
  have hscan : scan (.name []) (name.toList ++ '>' :: cs) = _ := scan_name h.opening h.closing (by simpa using h.nonempty)
  simpa [Atom.text, scan] using hscan

/-- What is written for a piece is read as the piece. -/
theorem scan_token {t : Token} (h : t.Legal) (cs : List Char) : scan .body (t.text ++ cs) = (t :: ·) <$> scan .body cs := by
  cases t with
  | bar => rfl
  | atom a =>
    cases a with
    | reference name => exact (scan_reference h.toIsName cs).trans (if_neg h.escape)
    | terminal c =>
      by_cases hc : isReserved c = true
      · simp [Token.text, Atom.text, hc, scan]
      · have hplain : c ≠ '|' ∧ c ≠ '\\' ∧ c ≠ '<' ∧ c ≠ '>' := by
          refine ⟨?_, ?_, ?_, ?_⟩ <;> rintro rfl <;> exact hc rfl
        simp [Token.text, Atom.text, hc, scan, hplain]

/-- What is written for pieces is read as the pieces, whatever comes after it. -/
theorem scan_tokens_append {ts : List Token} (h : ∀ t ∈ ts, t.Legal) (cs : List Char) :
    scan .body (ts.flatMap Token.text ++ cs) = (ts ++ ·) <$> scan .body cs := by
  induction ts with
  | nil => exact (id_map _).symm
  | cons t ts ih =>
    rw [List.flatMap_cons, List.append_assoc, scan_token (h t List.mem_cons_self), ih fun t ht => h t (List.mem_cons_of_mem _ ht)]
    cases scan .body cs <;> rfl

/-- What is written for pieces is read as the pieces. -/
theorem scan_tokens {ts : List Token} (h : ∀ t ∈ ts, t.Legal) : scan .body (ts.flatMap Token.text) = .ok ts := by
  have happend := scan_tokens_append h []
  rwa [List.append_nil, scan, Except.map_ok, List.append_nil] at happend

/-- Where all names can stand between angle brackets, only a backslash in one of them keeps pieces from being read. -/
theorem scan_tokens_eq_error {ts : List Token} (h : ∀ t ∈ ts, t.Bracketed) {name : String}
    (hname : .atom (.reference name) ∈ ts) (hescape : '\\' ∈ name.toList) :
    scan .body (ts.flatMap Token.text) = .error .escapeInName := by
  induction ts with
  | nil => cases hname
  | cons t ts ih =>
    obtain ⟨ht, hts⟩ := List.forall_mem_cons.1 h
    by_cases hlegal : t.Legal
    · rcases List.mem_cons.1 hname with rfl | hname
      · exact absurd hescape hlegal.escape
      · rw [List.flatMap_cons, scan_token hlegal, ih hts hname]
        rfl
    · cases t with
      | bar => exact absurd trivial hlegal
      | atom a =>
        cases a with
        | terminal c => exact absurd trivial hlegal
        | reference other =>
          have hother : '\\' ∈ other.toList := Classical.byContradiction fun hnot => hlegal ⟨ht, hnot⟩
          rw [List.flatMap_cons]
          exact (scan_reference ht _).trans (if_pos hother)

/-- What has been read of a piece that is not complete. -/
def Context.pending : Context → List Char
  | .body => []
  | .escape => ['\\']
  | .name read => '<' :: read

/-- What has been read of a name can be part of a name. -/
def Context.Sane : Context → Prop
  | .name read => '<' ∉ read ∧ '>' ∉ read ∧ '\\' ∉ read
  | _ => True

/-- Where a piece is put in front of what is read, the rest was read. -/
theorem exists_of_cons_eq_ok {piece : Token} {result : Except Fault (List Token)} {ts : List Token}
    (h : (piece :: ·) <$> result = .ok ts) : ∃ rest, result = .ok rest ∧ ts = piece :: rest := by
  cases result with
  | error fault => cases h
  | ok rest =>
    cases h
    exact ⟨rest, rfl, rfl⟩

/-- Where a reader succeeds, from whatever context, the pieces are what was read, and their names can be read. -/
theorem text_of_scan {context : Context} (hcontext : context.Sane) {cs : List Char} {ts : List Token}
    (h : scan context cs = .ok ts) : (∀ t ∈ ts, t.Legal) ∧ context.pending ++ cs = ts.flatMap Token.text := by
  induction cs generalizing context ts with
  | nil =>
    cases context with
    | body =>
      cases h
      simp [Context.pending]
    | escape => cases h
    | name read => cases h
  | cons c cs ih =>
    have hpiece : ∀ piece : Token, piece.Legal → context.pending ++ [c] = piece.text →
        (piece :: ·) <$> scan .body cs = .ok ts →
        (∀ t ∈ ts, t.Legal) ∧ context.pending ++ c :: cs = ts.flatMap Token.text := by
      intro piece hlegal htext hscan
      obtain ⟨rest, hrest, rfl⟩ := exists_of_cons_eq_ok hscan
      obtain ⟨hall, heq⟩ := ih (show Context.Sane .body from trivial) hrest
      refine ⟨List.forall_mem_cons.2 ⟨hlegal, hall⟩, ?_⟩
      rw [List.flatMap_cons, ← htext, ← heq]
      simp [Context.pending]
    cases context with
    | body =>
      rw [scan] at h
      split at h
      · rename_i hc
        exact hpiece .bar trivial (by simp [Context.pending, Token.text, hc]) h
      · split at h
        · rename_i hc
          have := ih (show Context.Sane .escape from trivial) h
          simpa [Context.pending, hc] using this
        · split at h
          · rename_i hc
            have := ih (show Context.Sane (.name []) by simp [Context.Sane]) h
            simpa [Context.pending, hc] using this
          · split at h
            · cases h
            · rename_i hbar hescape hopen hclose
              refine hpiece (.atom (.terminal c)) trivial ?_ h
              simp [Context.pending, Token.text, Atom.text, isReserved, hbar, hescape, hopen, hclose]
    | escape =>
      rw [scan] at h
      split at h
      · rename_i hc
        exact hpiece (.atom (.terminal c)) trivial (by simp [Context.pending, Token.text, Atom.text, hc]) h
      · cases h
    | name read =>
      obtain ⟨hopening, hclosing, hescape⟩ := hcontext
      rw [scan] at h
      split at h
      · rename_i hc
        split at h
        · cases h
        · rename_i hne
          have hname : IsReference (String.ofList read) := ⟨⟨by simpa using hne, by simpa, by simpa⟩, by simpa⟩
          refine hpiece (.atom (.reference (String.ofList read))) hname ?_ h
          simp [Context.pending, Token.text, Atom.text, hc]
      · split at h
        · cases h
        · split at h
          · cases h
          · rename_i hc hc' hc''
            have hsane : Context.Sane (.name (read ++ [c])) := by
              simp [Context.Sane, hopening, hclosing, hescape, Ne.symm hc, Ne.symm hc', Ne.symm hc'']
            have := ih hsane h
            simpa [Context.pending] using this

/-- The part after the sign is read as some pieces when it is what is written for them and their names can be read. -/
theorem scan_eq_ok_iff {cs : List Char} {ts : List Token} :
    scan .body cs = .ok ts ↔ (∀ t ∈ ts, t.Legal) ∧ cs = ts.flatMap Token.text := by
  constructor
  · exact text_of_scan (show Context.Sane .body from trivial)
  · rintro ⟨h, rfl⟩
    exact scan_tokens h

/-! ## Alternatives and bars -/

/-- Atoms stand in front of the first alternative. -/
theorem splitAtBars_atoms (atoms : List Atom) (ts : List Token) {first : List Atom} {others : List (List Atom)}
    (h : splitAtBars ts = first :: others) : splitAtBars (atoms.map Token.atom ++ ts) = (atoms ++ first) :: others := by
  induction atoms with
  | nil => exact h
  | cons a atoms ih => simp [splitAtBars, ih, consAtom]

/-- Alternatives that were joined are split again. -/
theorem splitAtBars_joinBars {alternatives : List (List Atom)} (h : alternatives ≠ []) :
    splitAtBars (joinBars alternatives) = alternatives := by
  induction alternatives with
  | nil => exact absurd rfl h
  | cons atoms alternatives ih =>
    cases alternatives with
    | nil =>
      have hsplit := splitAtBars_atoms atoms [] rfl
      simpa [joinBars] using hsplit
    | cons next alternatives =>
      have hrest : splitAtBars (.bar :: joinBars (next :: alternatives)) = [] :: next :: alternatives := by
        rw [splitAtBars, ih (List.cons_ne_nil _ _)]
      have hsplit := splitAtBars_atoms atoms _ hrest
      simpa [joinBars] using hsplit

/-- There is always an alternative. -/
theorem splitAtBars_ne_nil (ts : List Token) : splitAtBars ts ≠ [] := by
  cases ts with
  | nil => simp [splitAtBars]
  | cons t ts =>
    cases t with
    | bar => simp [splitAtBars]
    | atom a =>
      rw [splitAtBars]
      cases splitAtBars ts <;> simp [consAtom]

/-- Alternatives that were split are joined again. -/
theorem joinBars_splitAtBars (ts : List Token) : joinBars (splitAtBars ts) = ts := by
  induction ts with
  | nil => rfl
  | cons t ts ih =>
    obtain ⟨first, others, hsplit⟩ := List.exists_cons_of_ne_nil (splitAtBars_ne_nil ts)
    rw [hsplit] at ih
    cases t with
    | bar =>
      rw [splitAtBars, hsplit, ← ih]
      simp [joinBars]
    | atom a =>
      rw [splitAtBars, hsplit, consAtom, ← ih]
      cases others <;> simp [joinBars]

/-- The pieces of alternatives are bars and their atoms. -/
theorem mem_joinBars {alternatives : List (List Atom)} {a : Atom} :
    .atom a ∈ joinBars alternatives ↔ ∃ atoms ∈ alternatives, a ∈ atoms := by
  induction alternatives with
  | nil => simp [joinBars]
  | cons atoms alternatives ih =>
    cases alternatives with
    | nil => simp [joinBars]
    | cons next alternatives =>
      have hjoin : joinBars (atoms :: next :: alternatives) =
          atoms.map Token.atom ++ .bar :: joinBars (next :: alternatives) := by
        simp [joinBars]
      simp only [hjoin, List.mem_append, List.mem_cons (a := Token.atom a) (b := Token.bar), ih]
      simp

/-- What holds of bars and of the atoms of alternatives holds of their pieces. -/
theorem forall_mem_joinBars {P : Token → Prop} {alternatives : List (List Atom)} (hbar : P .bar)
    (h : ∀ atoms ∈ alternatives, ∀ a ∈ atoms, P (.atom a)) : ∀ t ∈ joinBars alternatives, P t := by
  intro t ht
  cases t with
  | bar => exact hbar
  | atom a =>
    obtain ⟨atoms, hatoms, ha⟩ := mem_joinBars.1 ht
    exact h atoms hatoms a ha

/-! ## The part before the sign -/

/-- Where the sign does not stand at the beginning, it is looked for further on. -/
theorem splitLine?_cons {c : Char} {cs : List Char} (h : ¬[':', ':', '='] <+: c :: cs) :
    splitLine? (c :: cs) = (splitLine? cs).map fun parts => (c :: parts.1, parts.2) := by
  rw [splitLine?]
  rintro cs' rfl rfl
  exact h (List.prefix_append [':', ':', '='] cs')

/-- A line is cut at a sign if no other comes before it. -/
theorem splitLine?_sign {head : List Char} (h : ¬[':', ':', '='] <:+: head) (body : List Char) :
    splitLine? (head ++ ':' :: ':' :: '=' :: body) = some (head, body) := by
  induction head with
  | nil => rfl
  | cons c head ih =>
    have hstart : ¬[':', ':', '='] <+: c :: (head ++ ':' :: ':' :: '=' :: body) := by
      intro hprefix
      match head with
      | [] => simp [List.cons_prefix_cons] at hprefix
      | [d] => simp [List.cons_prefix_cons] at hprefix
      | d :: e :: head =>
        simp only [List.cons_append, List.cons_prefix_cons, List.nil_prefix, and_true] at hprefix
        obtain ⟨rfl, rfl, rfl⟩ := hprefix
        exact h (List.prefix_append [':', ':', '='] head).isInfix
    rw [List.cons_append, splitLine?_cons hstart, ih fun hinfix => h (List.infix_cons hinfix)]
    rfl

/-- The line is cut at the sign behind the bracket that closes the name, if the name does not hold the sign. -/
theorem splitLine?_append {name body : List Char} (h : ¬[':', ':', '='] <:+: name) :
    splitLine? (name ++ '>' :: ':' :: ':' :: '=' :: body) = some (name ++ ['>'], body) := by
  have hhead : ¬[':', ':', '='] <:+: name ++ ['>'] := by
    intro hinfix
    rcases List.infix_concat_iff.1 hinfix with hsuffix | hinfix
    · exact absurd (hsuffix.getLast (by simp)) (by simp)
    · exact h hinfix
  have hcut := splitLine?_sign hhead body
  rwa [List.append_assoc] at hcut

/-- A line that is cut has its parts on both sides of the sign, which does not occur in the first. -/
theorem of_splitLine?_eq_some {line head body : List Char} (h : splitLine? line = some (head, body)) :
    line = head ++ ':' :: ':' :: '=' :: body ∧ ¬[':', ':', '='] <:+: head := by
  induction line generalizing head with
  | nil => cases h
  | cons c line ih =>
    by_cases hprefix : [':', ':', '='] <+: c :: line
    · obtain ⟨rest, heq⟩ := hprefix
      cases heq
      cases h
      exact ⟨rfl, by simp⟩
    · rw [splitLine?_cons hprefix] at h
      obtain ⟨⟨head', body'⟩, hparts, heq⟩ := Option.map_eq_some_iff.1 h
      cases heq
      obtain ⟨rfl, hinfix⟩ := ih hparts
      refine ⟨rfl, fun hin => ?_⟩
      rcases List.infix_cons_iff.1 hin with hin | hin
      · exact hprefix (hin.trans (List.prefix_append (c :: head') _))
      · exact hinfix hin

/-- What begins and ends with a character that is not blank has nothing to be trimmed. -/
theorem trim_bracketed (name : List Char) : trim ('<' :: name ++ ['>']) = '<' :: name ++ ['>'] := by
  have hopen : ¬isBlank '<' = true := by decide
  have hclose : ¬isBlank '>' = true := by decide
  rw [trim, List.cons_append, List.dropWhile_cons_of_neg hopen, ← List.cons_append, List.reverse_concat,
    List.dropWhile_cons_of_neg hclose, ← List.reverse_concat, List.reverse_reverse]

/-- A trimmed text stands in the text that it was trimmed from. -/
theorem exists_append_trim (cs : List Char) : ∃ before after, cs = before ++ trim cs ++ after := by
  obtain ⟨before, hbefore⟩ := List.dropWhile_suffix (l := cs) isBlank
  obtain ⟨after, hafter⟩ := List.dropWhile_suffix (l := (cs.dropWhile isBlank).reverse) isBlank
  refine ⟨before, after.reverse, ?_⟩
  rw [List.append_assoc, trim, ← List.reverse_append, hafter, List.reverse_reverse, hbefore]

/-- A head is read when it is a name in angle brackets. -/
theorem readHead_eq_ok_iff {head : List Char} {name : String} :
    readHead head = .ok name ↔ IsName name ∧ head = '<' :: name.toList ++ ['>'] := by
  constructor
  · intro h
    unfold readHead at h
    split at h
    · cases h
    · rename_i inner hinner
      split at h
      · cases h
      · rename_i hne
        split at h
        · cases h
        · rename_i hany
          cases h
          have hany : '<' ∉ inner ∧ '>' ∉ inner := by
            simp only [List.any_eq_true, not_exists, not_and, Bool.or_eq_true, beq_iff_eq, not_or] at hany
            exact ⟨fun hm => (hany _ hm).1 rfl, fun hm => (hany _ hm).2 rfl⟩
          refine ⟨⟨by simpa using hne, by simpa using hany.1, by simpa using hany.2⟩, ?_⟩
          unfold bracketed? at hinner
          split at hinner
          · split at hinner
            · rename_i cs hlast
              cases hinner
              rw [String.toList_ofList, List.cons_append, List.dropLast_append_getLast? _ hlast]
            · cases hinner
          · cases hinner
  · rintro ⟨⟨hne, hopen, hclose⟩, rfl⟩
    have hany : (name.toList.any fun c => c == '<' || c == '>') = false := by
      rw [List.any_eq_false]
      intro c hc
      have hcopen : c ≠ '<' := fun h => hopen (h ▸ hc)
      have hcclose : c ≠ '>' := fun h => hclose (h ▸ hc)
      simp [hcopen, hcclose]
    simp [readHead, bracketed?, hne, hany]

/-! ## Lines -/

/-- What is written for a definition is read by reading the part after the sign, if the name before it can be read. -/
theorem ofLine_text_eq {d : Definition} (h : IsHead d.head) :
    ofLine d.text = (scan .body (bodyText d.alternatives)).map fun ts => ⟨d.head, splitAtBars ts⟩ := by
  have hsign : ¬[':', ':', '='] <:+: '<' :: d.head.toList := by
    intro hin
    rcases List.infix_cons_iff.1 hin with hin | hin
    · exact absurd (List.cons_prefix_cons.1 hin).1 (by decide)
    · exact h.sign hin
  have hhead := readHead_eq_ok_iff.2 ⟨h.toIsName, rfl⟩
  unfold ofLine
  rw [text, splitLine?_append hsign]
  simp only [trim_bracketed, hhead, bind, Except.bind, pure, Except.pure, Except.map]

/-- The pieces of alternatives can be read when their references can. -/
theorem legal_joinBars_iff {d : Definition} :
    (∀ t ∈ joinBars d.alternatives, t.Legal) ↔ ∀ name ∈ d.references, IsReference name := by
  constructor
  · intro h name hname
    exact h (.atom (.reference name)) (mem_joinBars.2 (mem_references.1 hname))
  · refine fun h => forall_mem_joinBars trivial fun atoms hatoms a ha => ?_
    cases a with
    | terminal c => trivial
    | reference name => exact h name (mem_references.2 ⟨atoms, hatoms, ha⟩)

/-- What is written for a definition is read as the definition. -/
theorem ofLine_text {d : Definition} (h : d.Legal) : ofLine d.text = .ok d := by
  have hlegal := legal_joinBars_iff.2 fun name hname => ⟨h.reference name hname, h.escape name hname⟩
  rw [ofLine_text_eq h.head, bodyText, scan_tokens hlegal, Except.map, splitAtBars_joinBars h.alternatives]

/-- Only a backslash in a reference keeps what is written for a definition from being read. -/
theorem ofLine_text_eq_error {d : Definition} (h : d.Bracketed) {name : String} (hname : name ∈ d.references)
    (hescape : '\\' ∈ name.toList) : ofLine d.text = .error .escapeInName := by
  have hbracketed : ∀ t ∈ joinBars d.alternatives, t.Bracketed := by
    refine forall_mem_joinBars trivial fun atoms hatoms a ha => ?_
    cases a with
    | terminal c => trivial
    | reference name => exact h.reference name (mem_references.2 ⟨atoms, hatoms, ha⟩)
  have hmem : .atom (.reference name) ∈ joinBars d.alternatives := mem_joinBars.2 (mem_references.1 hname)
  rw [ofLine_text_eq h.head, bodyText, scan_tokens_eq_error hbracketed hmem hescape, Except.map]

/-- A line is read when it can be cut, the part before the sign is a name and the part after it is read as pieces. -/
theorem ofLine_eq_ok_iff {line : List Char} {d : Definition} : ofLine line = .ok d ↔
    ∃ head body ts, splitLine? line = some (head, body) ∧ readHead (trim head) = .ok d.head ∧ scan .body body = .ok ts ∧
      d.alternatives = splitAtBars ts := by
  unfold ofLine
  constructor
  · intro h
    split at h
    · cases h
    · rename_i head body hsplit
      cases hname : readHead (trim head) with
      | error fault =>
        rw [hname] at h
        cases h
      | ok name =>
        cases hscan : scan .body body with
        | error fault =>
          rw [hname, hscan] at h
          cases h
        | ok ts =>
          rw [hname, hscan] at h
          cases h
          exact ⟨head, body, ts, hsplit, hname, hscan, rfl⟩
  · obtain ⟨name, alternatives⟩ := d
    rintro ⟨head, body, ts, hsplit, hname, hscan, rfl⟩
    rw [hsplit]
    simp only [hname, hscan]
    rfl

/-- What is read from a line can be read, and the line is what is written for it but for blanks around the name. -/
theorem exists_of_ofLine {line : List Char} {d : Definition} (h : ofLine line = .ok d) :
    d.Legal ∧ ∃ before after,
      line = before ++ ('<' :: d.head.toList ++ ['>']) ++ after ++ ':' :: ':' :: '=' :: bodyText d.alternatives := by
  obtain ⟨head, body, ts, hsplit, hname, hscan, halternatives⟩ := ofLine_eq_ok_iff.1 h
  obtain ⟨rfl, hsign⟩ := of_splitLine?_eq_some hsplit
  obtain ⟨hlegal, rfl⟩ := scan_eq_ok_iff.1 hscan
  obtain ⟨hisname, htrim⟩ := readHead_eq_ok_iff.1 hname
  obtain ⟨before, after, hhead⟩ := exists_append_trim head
  rw [htrim] at hhead
  have hjoin : joinBars d.alternatives = ts := by rw [halternatives, joinBars_splitAtBars]
  have hreference : ∀ name ∈ d.references, IsReference name := legal_joinBars_iff.1 (by rwa [hjoin])
  have hishead : IsHead d.head := by
    refine ⟨hisname, fun hin => hsign (hin.trans ?_)⟩
    rw [hhead]
    exact ⟨before ++ ['<'], ['>'] ++ after, by simp⟩
  refine ⟨⟨⟨hishead, halternatives ▸ splitAtBars_ne_nil ts, fun name h => (hreference name h).toIsName⟩,
    fun name h => (hreference name h).escape⟩, before, after, ?_⟩
  rw [bodyText, hjoin, ← hhead]

end Definition

end TopDown
