/-
The exact value of a double, and the double nearest to an exact value.

A finite double is an integer times a power of two, so it is a rational number and
nothing about its decimal form needs floating-point arithmetic.  `decode` takes the bits
apart, `nearest` goes the other way: it rounds a fraction to the nearest double, and from
halfway to the one with the even significand.
-/
namespace PolyAlgebra.Double

/-- The magnitude of a finite double, `significand * 2 ^ exponent`. -/
structure Magnitude where
  /-- Less than 2 to the power 53. -/
  significand : Nat
  /-- At least -1074. -/
  exponent : Int
deriving DecidableEq

/-- What the bits of a double stand for. -/
inductive Decoded where
  | undefined
  | infinite (negative : Bool)
  | finite (negative : Bool) (magnitude : Magnitude)
deriving DecidableEq

/-- The weight of the leading bit of a significand, 2 to the power 52. -/
def hiddenBit : Nat := 4503599627370496

/--
Take the bits of a double apart: a sign, eleven bits that give the exponent, and 52 bits of
fraction.  The lowest exponent has no hidden leading bit, the highest is not finite.
-/
def decodeBits (bits : Nat) : Decoded :=
  let negative := bits / (2048 * hiddenBit) % 2 == 1
  let field : Nat := bits / hiddenBit % 2048
  let fraction : Nat := bits % hiddenBit
  if field == 2047 then
    if fraction == 0 then .infinite negative else .undefined
  else if field == 0 then .finite negative ⟨fraction, -1074⟩
  else .finite negative ⟨hiddenBit + fraction, (field : Int) - 1075⟩

/-- Take a double apart. -/
def decode (x : Float) : Decoded := decodeBits x.toBits.toNat

/-- A natural number to an integer power. -/
def integerPower (base : Nat) (exponent : Int) : Rat :=
  if 0 ≤ exponent then ((base.pow exponent.toNat : Nat) : Rat)
  else 1 / ((base.pow (-exponent).toNat : Nat) : Rat)

/-- Two to an integer power. -/
def powerOfTwo (exponent : Int) : Rat := integerPower 2 exponent

namespace Magnitude

/-- The rational number that a magnitude is. -/
def value (m : Magnitude) : Rat := (m.significand : Rat) * powerOfTwo m.exponent

/-- The upper end of the rationals that round to this magnitude. -/
def upper (m : Magnitude) : Rat := m.value + powerOfTwo (m.exponent - 1)

/--
The lower end of the rationals that round to this magnitude.  Below a power of two the
doubles lie twice as close, unless there is no lower exponent.
-/
def lower (m : Magnitude) : Rat :=
  if m.significand = hiddenBit ∧ -1074 < m.exponent then m.value - powerOfTwo (m.exponent - 2)
  else m.value - powerOfTwo (m.exponent - 1)

/-- Whether a rational number rounds to this magnitude; the ends go to an even significand. -/
def rounds (m : Magnitude) (r : Rat) : Bool :=
  if m.significand % 2 = 0 then m.lower ≤ r && r ≤ m.upper else m.lower < r && r < m.upper

end Magnitude

/-- A non-negative rational rounded to an integer, from halfway to the even neighbour. -/
def roundHalfEven (r : Rat) : Nat :=
  let below := r.floor.toNat
  let excess := r - (below : Rat)
  if excess < 1 / 2 then below
  else if 1 / 2 < excess then below + 1
  else if below % 2 = 0 then below
  else below + 1

/-- The exponent of the leading bit of a positive rational. -/
def leadingExponent (r : Rat) : Int :=
  let guess := (r.num.toNat.log2 : Int) - (r.den.log2 : Int)
  if powerOfTwo guess ≤ r then guess else guess - 1

/--
The bits of the double nearest to a non-negative rational.  The significand is rounded at
the exponent that leaves it 53 bits; a carry out of it raises the exponent by itself, since
the two are neighbours in the word.  Past the highest exponent lies infinity.
-/
def nearestBits (r : Rat) : Nat :=
  if r = 0 then 0
  else
    let exponent := max (leadingExponent r - 52) (-1074)
    let significand := roundHalfEven (r / powerOfTwo exponent)
    let bits := (exponent + 1074).toNat * hiddenBit + significand
    min bits (2047 * hiddenBit)

/-- The double nearest to a non-negative rational. -/
def nearest (r : Rat) : Float := Float.ofBits (UInt64.ofNat (nearestBits r))

/-- The integer that a double is, if it is one. -/
def whole? (x : Float) : Option Int :=
  match decode x with
  | .finite negative m =>
    if m.value.den = 1 then some (if negative then -m.value.num else m.value.num) else none
  | _ => none

end PolyAlgebra.Double
