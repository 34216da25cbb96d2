/-
Classes of characters, given as ranges of code points.
-/
namespace PolyAlgebra.Text

/-- The first and the last code point of a range. -/
abbrev CodeRange := Nat × Nat

/-- Whether a character lies in one of the ranges. -/
def isInRanges (ranges : List CodeRange) (c : Char) : Bool :=
  ranges.any (fun r => decide (r.1 ≤ c.toNat) && decide (c.toNat ≤ r.2))

end PolyAlgebra.Text
