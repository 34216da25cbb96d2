/-
The logarithm of one more than a double, rounded once.

The sum is formed exactly, so nothing of a small summand is lost in it.  Its logarithm is
computed on a grid of step 2 to the power -256 from the odd powers of an inverse hyperbolic
tangent,

    log r = 2 * (z + z³ / 3 + z⁵ / 5 + …)    where z = (r - 1) / (r + 1),

and only the result is rounded to a double.  The series is used for `r` between one half
and two, where `z` is at most a third in size and 80 terms reach the end of the grid; other
values are first divided by a power of two, whose logarithm is a multiple of that of two.
-/
import PolyAlgebra.Double.Value

namespace PolyAlgebra.Double

/-- How many steps of the grid make one: 2 to the power 256. -/
def gridSize : Nat := Nat.pow 2 256

/-- The last step of the grid at or below a rational. -/
def gridFloor (r : Rat) : Int := (r * (gridSize : Rat)).floor

/--
A number of terms of `power / odd + power * square / (odd + 2) + …`, in which each power is
the one before times the square.  Powers and sum are in steps of the grid.
-/
def oddPowerSum (square : Int) : Nat → Int → Int → Int
  | 0, _, _ => 0
  | terms + 1, power, odd =>
    power / odd + oddPowerSum square terms (power * square / (gridSize : Int)) (odd + 2)

/-- The logarithm of `(1 + z) / (1 - z)`, for `z` at most a third in size. -/
def logRatio (z : Rat) : Rat :=
  let power := gridFloor z
  let square := gridFloor (z * z)
  ((2 * oddPowerSum square 80 power 1 : Int) : Rat) / (gridSize : Rat)

/-- The logarithm of two. -/
def logTwo : Rat := logRatio (1 / 3)

/-- The logarithm of a positive rational. -/
def logarithm (r : Rat) : Rat :=
  let exponent := if 1 / 2 ≤ r ∧ r ≤ 2 then 0 else leadingExponent r
  let reduced := r / powerOfTwo exponent
  logRatio ((reduced - 1) / (reduced + 1)) + (exponent : Rat) * logTwo

/--
The logarithm of `1 + x`.  Below 2 to the power -54 it is so close to `x` that no double
lies nearer; at minus one it is infinite and below that undefined.
-/
def logOnePlus (x : Float) : Float :=
  match decode x with
  | .undefined => x
  | .infinite negative => if negative then 0 / 0 else x
  | .finite negative m =>
    let sum := if negative then 1 - m.value else 1 + m.value
    if m.value < powerOfTwo (-54) then x
    else if sum = 0 then -1 / 0
    else if sum < 0 then 0 / 0
    else
      let result := logarithm sum
      if result < 0 then -nearest (-result) else nearest result

end PolyAlgebra.Double
