/-
A double rounded to ten significant digits, in scientific notation.

One digit stands before the point and nine behind it, then `e` and the power of ten.  The
exact value is rounded, and from halfway the even digit is taken; a carry past the first
digit raises the power of ten.
-/
import PolyAlgebra.Double.Shortest

namespace PolyAlgebra.Double

/-- The ten leading digits of a positive rational and the power of ten of the first. -/
def tenDigits (r : Rat) : Nat × Int :=
  let exponent := decimalExponent r
  let digits := roundHalfEven (r / powerOfTen (exponent - 9))
  if digits < 10000000000 then (digits, exponent) else (1000000000, exponent + 1)

/-- Ten digits with a point after the first, and the power of ten. -/
def scientificText (digits : Nat) (exponent : Int) : String :=
  (Decimal.mk digits 9).text ++ "e" ++ exponent.repr

/-- The scientific text of a double. -/
def scientific (x : Float) : String :=
  match decode x with
  | .undefined => Numeral.undefined.text
  | .infinite negative => (Numeral.infinite negative).text
  | .finite negative m =>
    let (digits, exponent) := if m.significand = 0 then (0, 0) else tenDigits m.value
    Numeral.sign negative ++ scientificText digits exponent

end PolyAlgebra.Double
