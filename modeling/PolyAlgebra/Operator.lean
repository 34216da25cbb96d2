/-
The binary operators of an expression.
-/
namespace PolyAlgebra

/-- The binary operators. -/
inductive Operator where
  | add
  | subtract
  | multiply
  | divide
  | power
deriving DecidableEq

namespace Operator

/-- How an operator is written. -/
def symbol : Operator → String
  | .add => "+"
  | .subtract => "-"
  | .multiply => "*"
  | .divide => "/"
  | .power => "^"

/-- Whether the operands of the operator may change places. -/
def isCommutative : Operator → Bool
  | .add => true
  | .multiply => true
  | .subtract => false
  | .divide => false
  | .power => false

end Operator

end PolyAlgebra
