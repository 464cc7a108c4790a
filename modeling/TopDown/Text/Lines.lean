/-!
# Lines

A text is cut at its line feeds. A carriage return right before a line feed goes with it, and a line feed at the very end does
not open another line; so the empty text has no line at all.
-/

namespace TopDown.Text

/-- Puts a character in front of the first line. -/
def consLine (c : Char) : List (List Char) → List (List Char)
  | [] => [[c]]
  | line :: rest => (c :: line) :: rest

/-- The lines of a text, without their ends. -/
def lines : List Char → List (List Char)
  | [] => []
  | '\n' :: cs => [] :: lines cs
  | '\r' :: '\n' :: cs => [] :: lines cs
  | c :: cs => consLine c (lines cs)

end TopDown.Text
