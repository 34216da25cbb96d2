/-
Systems of linear equations, solved by elimination with partial pivoting.

One unknown is eliminated after the other.  The equation with the largest coefficient of
the unknown becomes the pivot and changes places with the first equation; a multiple of it
is then subtracted from each of the others, which leaves a system with one unknown and one
equation less.  When that is solved, the pivot gives the value of the unknown.

If no equation has a coefficient of the unknown other than zero, the system has no single
solution and is given up.
-/
import PolyAlgebra.Number

namespace PolyAlgebra

/-- A linear equation: one coefficient for each unknown, and the right-hand side. -/
structure LinearEquation (α : Type) where
  /-- The coefficients, those of the first unknowns first. -/
  coefficients : List α
  /-- What the left-hand side has to come to. -/
  constant : α

namespace LinearEquation

variable {α : Type} [Number α]

/-- The coefficient of the first unknown. -/
def leading (e : LinearEquation α) : α := e.coefficients.head?.getD 0

/-- An equation with a multiple of the pivot subtracted, so that the first unknown is gone. -/
def eliminate (pivot : LinearEquation α) (inverse : α) (e : LinearEquation α) :
    LinearEquation α :=
  let factor := e.leading * inverse
  { coefficients :=
      List.zipWith (fun p x => (-p) * factor + x) pivot.coefficients.tail e.coefficients.tail
    constant := (-pivot.constant) * factor + e.constant }

/-- The right-hand side after the known values are brought over, the last unknown first. -/
def bringOver (e : LinearEquation α) (known : List α) : α :=
  (e.coefficients.tail.zip known).foldr (fun term rest => (-term.2) * term.1 + rest) e.constant

end LinearEquation

namespace LinearSystem

variable {α : Type} [Number α]

/-- The first index at which the absolute value is largest. -/
def pivotIndex (leading : List α) : Nat :=
  match leading with
  | [] => 0
  | first :: rest => go (Number.abs first) 0 1 rest
where
  /-- Compare the largest so far, at index `best`, with what stands from index `next` on. -/
  go (largest : α) (best next : Nat) : List α → Nat
    | [] => best
    | x :: rest =>
      if largest < Number.abs x then go (Number.abs x) next (next + 1) rest
      else go largest best (next + 1) rest

/-- The equation at an index, and the others with the first equation in its place. -/
def swapOut {β : Type} (xs : List β) (index : Nat) : Option (β × List β) :=
  match xs, index with
  | [], _ => none
  | x :: rest, 0 => some (x, rest)
  | x :: rest, index + 1 => (rest[index]?).map (fun picked => (picked, rest.set index x))

/-- The values of a number of unknowns in as many equations, if they are determined. -/
def solve : Nat → List (LinearEquation α) → Option (List α)
  | 0, _ => some []
  | unknowns + 1, equations => do
    let (pivot, others) ← swapOut equations (pivotIndex (equations.map (·.leading)))
    if pivot.leading == 0 then none
    else
      let known ← solve unknowns (others.map (pivot.eliminate (1 / pivot.leading)))
      some (pivot.bringOver known / pivot.leading :: known)

end LinearSystem

end PolyAlgebra
