/-
The shortest decimal that reads back as a given double.

Of all decimals that round to the double, those with the fewest digits are wanted, and of
these the one nearest to the exact value.  The decimals with `count` digits form a grid
around the value.  If any point of a grid rounds to the double, then so does the point next
below the value or the point next above it, because the rationals that round to the double
are an interval about the value.  So it is enough to try these two neighbours on the grid of
one digit, of two digits and so on.  Seventeen digits always suffice.
-/
import PolyAlgebra.Decimal
import PolyAlgebra.Double.Value

namespace PolyAlgebra.Double

/-- How many decimal digits a natural number has; zero has one. -/
def digitCount (n : Nat) : Nat := (Nat.toDigits 10 n).length

/-- The power of ten that a positive rational reaches but the next one does not. -/
def decimalExponent (r : Rat) : Int :=
  if 1 ≤ r then (digitCount r.floor.toNat : Int) - 1
  else -(digitCount ((1 / r).ceil.toNat - 1) : Int)

/-- Ten to an integer power. -/
def powerOfTen (exponent : Int) : Rat := integerPower 10 exponent

/--
The better of the two neighbours of a magnitude among the multiples of a step, if one of
them rounds to the magnitude.  From halfway the upper one is taken.
-/
def neighbour? (m : Magnitude) (step : Rat) : Option Nat :=
  let below := (m.value / step).floor.toNat
  let lower := (below : Rat) * step
  let upper := ((below + 1 : Nat) : Rat) * step
  match m.rounds lower, m.rounds upper with
  | false, false => none
  | true, false => some below
  | false, true => some (below + 1)
  | true, true => some (if m.value - lower < upper - m.value then below else below + 1)

/-- The decimal `multiple * 10 ^ exponent` without zeros at the end of its fraction. -/
def decimalOf (multiple : Nat) (exponent : Int) : Decimal :=
  if 0 ≤ exponent then ⟨multiple * Nat.pow 10 exponent.toNat, 0⟩
  else trim multiple (-exponent).toNat
where
  /-- Drop zeros at the end of a fraction. -/
  trim (digits : Nat) : Nat → Decimal
    | 0 => ⟨digits, 0⟩
    | places + 1 =>
      if digits % 10 = 0 then trim (digits / 10) places else ⟨digits, places + 1⟩

/-- The decimal with the fewest digits that rounds to a magnitude, the nearest of those. -/
def shortest (m : Magnitude) : Decimal :=
  if m.significand = 0 then ⟨0, 0⟩
  else
    let top := decimalExponent m.value
    let attempt := fun count : Nat =>
      let exponent := top - (count : Int)
      (neighbour? m (powerOfTen exponent)).map (decimalOf · exponent)
    ((List.range 17).findSome? attempt).getD ⟨0, 0⟩

/-- The numeral of a double. -/
def numeral (x : Float) : Numeral :=
  match decode x with
  | .undefined => .undefined
  | .infinite negative => .infinite negative
  | .finite negative m => .finite negative (shortest m)

end PolyAlgebra.Double
