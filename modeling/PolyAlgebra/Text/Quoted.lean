/-
A character in single quotes, as it is shown in a message.

Characters that would not be seen, or that would join the quote before them, are given by
their code point in hexadecimal; a few have short forms of their own.
-/
import PolyAlgebra.Text.GraphemeExtend
import PolyAlgebra.Text.Unprintable

namespace PolyAlgebra.Text

/-- The escape that gives a character by its code point. -/
def codePointEscape (c : Char) : String :=
  "\\u\x7b" ++ String.ofList (Nat.toDigits 16 c.toNat) ++ "\x7d"

/-- What stands for a character between the quotes. -/
def escaped (c : Char) : String :=
  if c = '\x00' then "\\0"
  else if c = '\t' then "\\t"
  else if c = '\r' then "\\r"
  else if c = '\n' then "\\n"
  else if c = '\x27' then "\\\x27"
  else if c = '\\' then "\\\\"
  else if isGraphemeExtend c || isUnprintable c then codePointEscape c
  else String.singleton c

/-- A character in single quotes. -/
def quoted (c : Char) : String := "\x27" ++ escaped c ++ "\x27"

end PolyAlgebra.Text
