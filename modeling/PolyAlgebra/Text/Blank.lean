/-
The Unicode property White_Space, as of Unicode 17.0.
-/
import PolyAlgebra.Text.CodeRange

namespace PolyAlgebra.Text

/-- White space, from U+0009 to U+3000. -/
def blankRanges : List CodeRange :=
  [(0x0009, 0x000D), (0x0020, 0x0020), (0x0085, 0x0085), (0x00A0, 0x00A0), (0x1680, 0x1680),
    (0x2000, 0x200A), (0x2028, 0x2029), (0x202F, 0x202F), (0x205F, 0x205F), (0x3000, 0x3000)]

/-- Whether a character is white space. -/
def isBlank (c : Char) : Bool :=
  isInRanges blankRanges c

end PolyAlgebra.Text
