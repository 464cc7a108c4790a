import TopDown.Text.Ranges

/-!
# Blank characters

The characters that separate words (the property White_Space), and texts without them at the ends.
-/

namespace TopDown.Text

/-- The ranges of blank characters. -/
def blankRanges : List (Nat × Nat) :=
  [(0x9, 0xd), (0x20, 0x20), (0x85, 0x85), (0xa0, 0xa0), (0x1680, 0x1680), (0x2000, 0x200a), (0x2028, 0x2029),
   (0x202f, 0x202f), (0x205f, 0x205f), (0x3000, 0x3000)]

/-- Tells whether a character is blank. -/
def isBlank (c : Char) : Bool := inRanges c.toNat blankRanges

/-- The text without the blanks before its first and after its last other character. -/
def trim (cs : List Char) : List Char := ((cs.dropWhile isBlank).reverse.dropWhile isBlank).reverse

/-- Nothing is left of a text in front of which blanks were dropped exactly when all of it was blank. -/
theorem dropWhile_isBlank_eq_nil_iff {cs : List Char} : cs.dropWhile isBlank = [] ↔ ∀ c ∈ cs, isBlank c = true := by
  induction cs with
  | nil => simp
  | cons c cs ih =>
    by_cases h : isBlank c = true
    · rw [List.dropWhile_cons_of_pos h, ih]
      simp [h]
    · rw [List.dropWhile_cons_of_neg h]
      simp [h]

/-- A text of blanks trims to nothing, and no other text does. -/
theorem trim_eq_nil_iff {cs : List Char} : trim cs = [] ↔ ∀ c ∈ cs, isBlank c = true := by
  rw [trim, List.reverse_eq_nil_iff, dropWhile_isBlank_eq_nil_iff]
  constructor
  · intro h
    refine dropWhile_isBlank_eq_nil_iff.1 (Decidable.byContradiction fun hne => ?_)
    have h1 := List.head_dropWhile_not isBlank hne
    rw [h _ (List.mem_reverse.2 (List.head_mem hne))] at h1
    cases h1
  · exact fun h c hc => h c ((List.dropWhile_sublist _).mem (List.mem_reverse.1 hc))

end TopDown.Text
