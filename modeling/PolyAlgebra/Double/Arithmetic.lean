/-
Doubles as a type of numbers.

The operations are those of the machine; the decimal forms are exact, by way of the
rational values in `PolyAlgebra.Double.Value`.
-/
import PolyAlgebra.Number
import PolyAlgebra.Double.Logarithm
import PolyAlgebra.Double.Shortest

namespace PolyAlgebra.Double

/--
The inverse hyperbolic tangent: half the logarithm of `(1 + x) / (1 - x)`, which is one more
than `2 * x / (1 - x)`.  Close to minus one that quotient has few digits of `1 + x` left, and
so has the result.
-/
def inverseHyperbolicTangent (x : Float) : Float :=
  0.5 * logOnePlus (2 * x / (1 - x))

/-- The elementary functions on doubles. -/
def unary : UnaryFunction → Float → Float
  | .sine => Float.sin
  | .cosine => Float.cos
  | .tangent => Float.tan
  | .arcSine => Float.asin
  | .arcCosine => Float.acos
  | .arcTangent => Float.atan
  | .hyperbolicSine => Float.sinh
  | .hyperbolicCosine => Float.cosh
  | .hyperbolicTangent => Float.tanh
  | .inverseHyperbolicSine => Float.asinh
  | .inverseHyperbolicCosine => Float.acosh
  | .inverseHyperbolicTangent => inverseHyperbolicTangent
  | .naturalLogarithm => Float.log

/-- The double nearest to a decimal. -/
def ofDecimal (d : Decimal) : Float := nearest ((d.digits : Rat) / ((Nat.pow 10 d.places : Nat) : Rat))

instance instNumberFloat : Number Float where
  intCast := Float.ofInt
  zero := 0
  one := 1
  decidableLT := inferInstance
  lowest := -1 / 0
  isFinite := Float.isFinite
  whole? := whole?
  pow := Float.pow
  sqrt := Float.sqrt
  unary := unary
  angle := Float.atan2
  ofDecimal := ofDecimal
  numeral := numeral

end PolyAlgebra.Double
