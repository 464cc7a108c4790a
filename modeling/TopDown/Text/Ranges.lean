/-!
# Ranges

A set of characters is written as the ranges of their numbers, ascending, both ends included.
-/

namespace TopDown.Text

/-- Tells whether a number is in one of the ranges. They ascend, so nothing is looked for beyond the first that starts above
the number. -/
def inRanges (n : Nat) : List (Nat × Nat) → Bool
  | [] => false
  | (first, last) :: ranges => if n < first then false else n ≤ last || inRanges n ranges

end TopDown.Text
