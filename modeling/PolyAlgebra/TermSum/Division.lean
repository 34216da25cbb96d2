/-
Long division of sums of terms.

The divisor's first term is taken to lead.  Each step divides the first term of what
remains by it, subtracts that multiple of the divisor, and brings the rest into canonical
form again.  With several variables the degree need not fall, so the number of steps is
bounded.  Division succeeds only if nothing remains, up to the tolerance.

Whenever there is no quotient the cause is told: `Obstacle`.
-/
import PolyAlgebra.TermSum.Basic

namespace PolyAlgebra

/-- Why an expression does not collapse into a sum of terms. -/
inductive Obstacle (α : Type) [Number α] where
  /-- A power is never expanded. -/
  | power
  /-- A function was called with an argument that is not constant. -/
  | variableArgument
  /-- The divisor is zero. -/
  | zeroDivisor
  /-- The dividend has a smaller degree than the divisor. -/
  | lowDegree
  /-- The division leaves a remainder. -/
  | remainder
  /-- The division takes too many steps. -/
  | stepLimit
  /-- A function was called with the wrong number of arguments. -/
  | wrongCount (error : CountError)
  /-- A term had to be divided by a zero term. -/
  | term (error : TermError α)

namespace TermSum

variable {α : Type} [Number α]

/-- How many steps a division may take. -/
def divisionSteps : Nat := 1000

/-- Whether there is something left to divide: it is not zero and its degree is not below
that of the divisor. -/
def isDivisible (remainder : TermSum α) (degree : α) : Bool :=
  !remainder.isZero && !decide (remainder.degree < degree)

/-- What remains after a multiple of the divisor is subtracted. -/
def subtractMultiple (remainder divisor : TermSum α) (factor : Term α) : TermSum α :=
  reduce (remainder ++ divisor.map (fun t => (t.multiply factor).negate))

/-- The terms of the quotient, in the order they are found, within a number of steps. -/
def quotientTerms (divisor : TermSum α) (leading : Term α) (steps : Nat)
    (remainder : TermSum α) : Except (Obstacle α) (TermSum α) :=
  if isDivisible remainder divisor.degree then
    match steps, remainder with
    | 0, _ => .error .stepLimit
    | _ + 1, [] => .ok []
    | steps + 1, first :: _ =>
      match first.divide leading with
      | .error error => .error (.term error)
      | .ok factor =>
        (factor :: ·) <$>
          quotientTerms divisor leading steps (subtractMultiple remainder divisor factor)
  else if remainder.isZero then .ok []
  else .error .remainder

/-- The quotient of two sums, if the division leaves nothing. -/
def divide (dividend divisor : TermSum α) : Except (Obstacle α) (TermSum α) :=
  let dividend := reduce dividend
  let divisor := reduce divisor
  match divisor with
  | [] => .error .zeroDivisor
  | leading :: _ =>
    if divisor.isZero then .error .zeroDivisor
    else if dividend.isZero then .ok [Term.zero]
    else if dividend.degree < divisor.degree then .error .lowDegree
    else reduce <$> quotientTerms divisor leading divisionSteps dividend

end TermSum

end PolyAlgebra
