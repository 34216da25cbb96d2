/-
Exact arithmetic.

The numbers of a linearly ordered field with a floor are a type of numbers: nothing is ever
undefined, rounded or infinite, and two numbers are equal only if they are the same.  What
the field does not settle is left open, as `Unsettled`: square roots, elementary functions,
decimal forms, and powers whose exponent is not whole.  A power with a whole exponent is the
power of the field.

The lemmas here say what each operation of `Number` is in the field, so that no later proof
has to look into the instance.
-/
import Mathlib
import PolyAlgebra.Number

namespace PolyAlgebra

/-- What exact arithmetic leaves open. -/
class Unsettled (K : Type) where
  /-- The answer to what the largest of no numbers is. -/
  lowest : K
  sqrt : K → K
  unary : UnaryFunction → K → K
  angle : K → K → K
  /-- A number raised to one that is not whole. -/
  fractionalPow : K → K → K
  numeral : K → Numeral

/-- Rational numbers for which everything left open is zero. -/
instance instUnsettledRat : Unsettled ℚ where
  lowest := 0
  sqrt _ := 0
  unary _ _ := 0
  angle _ _ := 0
  fractionalPow _ _ := 0
  numeral _ := .undefined

/-- Real numbers, with the powers and the functions of analysis and without decimal forms. -/
noncomputable instance instUnsettledReal : Unsettled ℝ where
  lowest := 0
  sqrt := Real.sqrt
  unary
    | .sine => Real.sin
    | .cosine => Real.cos
    | .tangent => Real.tan
    | .arcSine => Real.arcsin
    | .arcCosine => Real.arccos
    | .arcTangent => Real.arctan
    | .hyperbolicSine => Real.sinh
    | .hyperbolicCosine => Real.cosh
    | .hyperbolicTangent => Real.tanh
    | .inverseHyperbolicSine => Real.arsinh
    | .inverseHyperbolicCosine => Real.arcosh
    | .inverseHyperbolicTangent => Real.artanh
    | .naturalLogarithm => Real.log
  angle y x := Complex.arg ⟨x, y⟩
  fractionalPow := (· ^ ·)
  numeral _ := .undefined

variable {K : Type} [Field K] [LinearOrder K] [FloorRing K] [Unsettled K]

namespace Exact

/-- The integer that a number is, if it is one. -/
def whole? (x : K) : Option Int := if (⌊x⌋ : K) = x then some ⌊x⌋ else none

/-- A number raised to another. -/
def pow (x y : K) : K :=
  match whole? y with
  | some n => x ^ n
  | none => Unsettled.fractionalPow x y

instance instNumberExact : Number K where
  decidableLT := inferInstance
  lowest := Unsettled.lowest
  isFinite _ := true
  whole? := whole?
  pow := pow
  sqrt := Unsettled.sqrt
  unary := Unsettled.unary
  angle := Unsettled.angle
  ofDecimal d := (d.digits : K) / 10 ^ d.places
  numeral := Unsettled.numeral

theorem eq_intCast_of_whole? {x : K} {n : Int} (h : Number.whole? x = some n) : x = n := by
  obtain ⟨hfloor, rfl⟩ := Option.ite_some_none_eq_some.mp h
  exact hfloor.symm

theorem pow_of_not_whole (x : K) {y : K} (h : ∀ n : Int, y ≠ n) :
    Number.pow x y = Unsettled.fractionalPow x y := by
  show pow x y = _
  rw [pow, whole?, if_neg (h _).symm]

theorem total_eq_sum (xs : List K) : Number.total xs = xs.sum := by
  have key : ∀ (ys : List K) (a : K), ys.foldl (· + ·) a = a + ys.sum := by
    intro ys
    induction ys with
    | nil => intro a; simp
    | cons y rest ih => intro a; rw [List.foldl_cons, ih, List.sum_cons, add_assoc]
  show xs.foldl (· + ·) (-0) = xs.sum
  rw [key, neg_zero, zero_add]

section Ordered

variable [IsStrictOrderedRing K]

theorem whole?_intCast (n : Int) : whole? (n : K) = some n := by
  simp [whole?]

@[simp] theorem pow_intCast (x : K) (n : Int) : Number.pow x (n : K) = x ^ n := by
  show pow x (n : K) = x ^ n
  rw [pow, whole?_intCast]

@[simp] theorem pow_zero_exponent (x : K) : Number.pow x (0 : K) = 1 := by
  simpa using pow_intCast x 0

end Ordered

end Exact

end PolyAlgebra
