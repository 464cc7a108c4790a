/-!
# Reserved characters

The text form of a grammar gives four characters a meaning of their own: angle brackets enclose names, a bar divides
alternatives, and a backslash takes the meaning away from the character after it.
-/

namespace TopDown.Text

/-- Tells whether a character has to be escaped to stand for itself. -/
def isReserved (c : Char) : Bool := c == '<' || c == '>' || c == '|' || c == '\\'

end TopDown.Text
