/-
Equality of expressions up to the tolerance.

Trees are compared node by node.  The operands of an operator that commutes may also stand
the other way round; sums are compared as bags of terms.
-/
import PolyAlgebra.Expr.Basic

namespace PolyAlgebra.Expr

variable {α : Type} [Number α]

mutual

/-- Whether two expressions are equal up to the tolerance and the order of operands. -/
def approxEq : Expr α → Expr α → Bool
  | .sum left, .sum right => TermSum.approxEq left right
  | .binary op left right, .binary op' left' right' =>
    op == op' &&
      (approxEq left left' && approxEq right right' ||
        op.isCommutative && approxEq left right' && approxEq right left')
  | .call f arguments, .call f' arguments' => f == f' && allApproxEq arguments arguments'
  | _, _ => false

/-- Whether two lists of expressions are equal one by one. -/
def allApproxEq : List (Expr α) → List (Expr α) → Bool
  | [], [] => true
  | e :: rest, e' :: rest' => approxEq e e' && allApproxEq rest rest'
  | _, _ => false

end

end PolyAlgebra.Expr
