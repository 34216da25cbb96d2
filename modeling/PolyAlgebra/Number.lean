/-
The numbers that coefficients, exponents and values are.

Everything in this library is written over an arbitrary type of numbers, so that the same
definitions run on doubles and can be reasoned about in exact arithmetic.  A `Number` type
has the four operations, a comparison, and what cannot be defined from those: powers,
square roots, the elementary functions, a decimal form.  No law is assumed.  In particular
a value may be *undefined*, which shows in its not being equal to itself, and then no
comparison with it holds.

Orders, absolute values, sums and the tolerances are defined here from the operations,
so each of them says what it does with an undefined value.
-/
import PolyAlgebra.Decimal
import PolyAlgebra.Elementary

namespace PolyAlgebra

/-- A type of numbers to compute with. -/
class Number (α : Type) extends Add α, Sub α, Mul α, Div α, Neg α, Zero α, One α, IntCast α,
    BEq α, LT α where
  /-- Comparison can be decided. -/
  decidableLT : DecidableLT α
  /-- The largest of no numbers at all. -/
  lowest : α
  /-- Whether the number is neither undefined nor infinite. -/
  isFinite : α → Bool
  /-- The integer that the number is, if it is one. -/
  whole? : α → Option Int
  /-- A number raised to another. -/
  pow : α → α → α
  /-- The square root. -/
  sqrt : α → α
  /-- The elementary functions of one argument. -/
  unary : UnaryFunction → α → α
  /-- The angle of the point with this ordinate and this abscissa. -/
  angle : α → α → α
  /-- The number a decimal stands for, or the one next to it. -/
  ofDecimal : Decimal → α
  /-- The decimal form of the number. -/
  numeral : α → Numeral

instance instDecidableLTNumber {α : Type} [Number α] : DecidableLT α := Number.decidableLT

namespace Number

variable {α : Type} [Number α]

/-! ### Comparing -/

/-- Whether the number is undefined: such a number is not equal to itself. -/
def isUndefined (x : α) : Bool := !(x == x)

/-- How two numbers compare, if they do. -/
def compare? (a b : α) : Option Ordering :=
  if a < b then some .lt
  else if b < a then some .gt
  else if a == b then some .eq
  else none

/-- How two numbers compare; numbers that do not compare count as equal. -/
def order (a b : α) : Ordering := (compare? a b).getD .eq

/-- Less or equal; false when either number is undefined. -/
def atMost (a b : α) : Bool := a < b || a == b

/-- The number without its sign, also for a zero. -/
def abs (x : α) : α := if x < 0 then -x else if x == 0 then 0 else x

/-- The larger of two numbers, the first of equals. -/
def larger (a b : α) : α := if a < b then b else a

/-- The largest of the numbers that are defined, `lowest` if there are none. -/
def largest (xs : List α) : α :=
  match xs.filter (fun x => !isUndefined x) with
  | [] => lowest
  | x :: rest => rest.foldl larger x

/-! ### Adding up -/

/-- The sum, from left to right.  It starts from the negative zero, which changes no number. -/
def total (xs : List α) : α := xs.foldl (· + ·) (-0)

/-! ### Tolerances -/

/-- Numbers that are this far apart are told apart: a millionth. -/
def tolerance : α := 1 / ((1000000 : Int) : α)

/-- Whether two numbers are less than the tolerance apart. -/
def isNear (a b : α) : Bool := abs (a - b) < tolerance

/-- The relative precision below which two results count as the same: 2 to the power -52. -/
def precision : α := 1 / ((4503599627370496 : Int) : α)

/-- Whether two numbers differ by no more than the precision, or by no more relative to
the larger of them. -/
def isRelativelyEqual (a b : α) : Bool :=
  if a == b then true
  else if isFinite a && isFinite b then
    atMost (abs (a - b)) precision ||
      atMost (abs (a - b)) (larger (abs b) (abs a) * precision)
  else false

/-! ### Elementary functions -/

/-- The value of an elementary function, if the number of arguments is right. -/
def apply : Elementary → List α → Option α
  | .unary f, [x] => some (unary f x)
  | .angle, [y, x] => some (angle y x)
  | .logarithm, [base, value] =>
    some (unary .naturalLogarithm value / unary .naturalLogarithm base)
  | _, _ => none

/-- A function has a value exactly for as many arguments as its arity. -/
theorem apply_isSome_iff (f : Elementary) (arguments : List α) :
    (apply f arguments).isSome = true ↔ arguments.length = f.arity := by
  unfold apply
  split <;> simp_all [Elementary.arity]
  rename_i hunary hangle hlogarithm
  intro h
  match f, arguments, h with
  | .unary g, [x], _ => exact hunary g x rfl rfl
  | .angle, [y, x], _ => exact hangle y x rfl rfl
  | .logarithm, [b, v], _ => exact hlogarithm b v rfl rfl

/-! ### Text -/

/-- The text of a number. -/
def text (x : α) : String := (numeral x).text

end Number

/-- The values of some of the variables. -/
abbrev Bindings (α : Type) := String → Option α

end PolyAlgebra
