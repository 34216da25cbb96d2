/-
The polynomial through given points.

Through `n` points with different inputs there is one polynomial of degree below `n`.  Its
coefficients solve a linear system with one equation for each point, whose coefficients are
the powers of the input, the highest first.
-/
import PolyAlgebra.Expr.Basic
import PolyAlgebra.LinearSystem

namespace PolyAlgebra

/-- Why there is no polynomial through the points. -/
inductive InterpolationError where
  /-- There are not as many outputs as inputs. -/
  | lengthMismatch (inputs outputs : Nat)
  /-- There is no point at all. -/
  | noPoints
  /-- The points do not determine the coefficients. -/
  | singular
deriving DecidableEq

/-- The text of an interpolation error. -/
def InterpolationError.message : InterpolationError → String
  | .lengthMismatch inputs outputs =>
    "Received " ++ inputs.repr ++ " inputs but " ++ outputs.repr ++ " outputs"
  | .noPoints => "At least one point is needed"
  | .singular => "The interpolation matrix is singular"

namespace Interpolation

variable {α : Type} [Number α]

/-- A product, times a number raised to a natural number by repeated squaring. -/
def timesPower (product x : α) (n : Nat) : α :=
  if n = 0 then product
  else timesPower (if n % 2 = 1 then product * x else product) (x * x) (n / 2)
termination_by n

/-- A number raised to a natural number. -/
def naturalPower (x : α) (n : Nat) : α := timesPower 1 x n

/-- The exponents of a polynomial with a number of coefficients, the highest first. -/
def exponents (count : Nat) : List Nat := (List.range count).reverse

/-- The equation that a point gives for the coefficients. -/
def pointEquation (count : Nat) (input output : α) : LinearEquation α :=
  ⟨(exponents count).map (naturalPower input), output⟩

/-- A coefficient and its exponent as a term. -/
def coefficientTerm (name : String) (coefficient : α) (exponent : Nat) : Term α :=
  Term.ofPowers coefficient [(name, ((exponent : Int) : α))]

end Interpolation

open Interpolation in
/-- The polynomial in a variable that has the given outputs at the given inputs. -/
def interpolate {α : Type} [Number α] (name : String) (inputs outputs : List α) :
    Except InterpolationError (Expr α) :=
  if inputs.length ≠ outputs.length then
    .error (.lengthMismatch inputs.length outputs.length)
  else if inputs.isEmpty then .error .noPoints
  else
    let count := inputs.length
    match LinearSystem.solve count (List.zipWith (pointEquation count) inputs outputs) with
    | some coefficients =>
      .ok (Expr.ofTerms (List.zipWith (coefficientTerm name) coefficients (exponents count)))
    | none => .error .singular

end PolyAlgebra
