import TopDown.Text.Extending
import TopDown.Text.Unprintable

/-!
# Quotations

A word as it is shown to people: in double quotes, with every character that could be misread written by an escape.
-/

namespace TopDown.Text

/-- A character by its number, in lower-case hexadecimal digits without padding. -/
def escapeByNumber (c : Char) : List Char := ['\\', 'u', '\x7b'] ++ Nat.toDigits 16 c.toNat ++ ['\x7d']

/-- A character inside double quotes. A few have an escape of their own, and those that cannot be seen or cannot stand alone
are written by number. -/
def quoteChar (c : Char) : List Char :=
  if c = '"' then ['\\', '"']
  else if c = '\\' then ['\\', '\\']
  else if c = '\t' then ['\\', 't']
  else if c = '\r' then ['\\', 'r']
  else if c = '\n' then ['\\', 'n']
  else if c = '\x00' then ['\\', '0']
  else if isUnprintable c || isExtending c then escapeByNumber c
  else [c]

/-- The word in double quotes. -/
def quote (word : String) : String := String.ofList ('"' :: word.toList.flatMap quoteChar ++ ['"'])

end TopDown.Text
