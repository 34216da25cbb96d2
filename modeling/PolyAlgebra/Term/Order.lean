/-
The order terms are shown in.

High degrees come first, then few variables, then large coefficients.  The canonical order
breaks the remaining ties by the names of the variables.  Both put larger things first, so
two of their comparisons are turned round; values that do not compare count as equal.
-/
import PolyAlgebra.Term.Basic

namespace PolyAlgebra.Term

variable {α : Type} [Number α]

/-- Highest degree first, then fewest variables, then largest coefficient. -/
def displayOrder (t other : Term α) : Ordering :=
  ((Number.order other.degree t.degree).then (compare t.dimension other.dimension)).then
    (Number.order other.coefficient t.coefficient)

/-- Lists of names in the order of a dictionary. -/
def compareNames : List String → List String → Ordering
  | [], [] => .eq
  | [], _ :: _ => .lt
  | _ :: _, [] => .gt
  | a :: as, b :: bs => if a < b then .lt else if b < a then .gt else compareNames as bs

/-- The display order, ties broken by the names of the variables. -/
def canonicalOrder (t other : Term α) : Ordering :=
  (t.displayOrder other).then (compareNames t.powers.names other.powers.names)

end PolyAlgebra.Term
