/-
Why an expression has no value.

Two causes are ordinary: a variable without a value, and a division by zero.  The third, an
operator or a function with the wrong number of operands, cannot arise from an expression
that was built through the checked constructors.
-/
import PolyAlgebra.Elementary
import PolyAlgebra.Operator

namespace PolyAlgebra

/-- An operator or a function was given the wrong number of operands. -/
inductive CountError where
  /-- An operator takes exactly two operands. -/
  | operands (op : Operator) (given : Nat)
  /-- A function takes as many arguments as its arity. -/
  | arguments (f : Elementary) (given : Nat)
deriving DecidableEq

namespace CountError

/-- A broken promise about two counts that had to agree. -/
def report (promise : String) (given wanted : Nat) : String :=
  "assertion `left == right` failed: " ++ promise ++
    "\n  left: " ++ given.repr ++ "\n right: " ++ wanted.repr

/-- The text of a wrong count. -/
def message : CountError → String
  | .operands op given =>
    report ("The " ++ op.symbol ++ " operator expects exactly 2 operands") given 2
  | .arguments f given =>
    report (f.name ++ " expects " ++ f.arity.repr ++ " argument(s)") given f.arity

end CountError

/-- Why an expression has no value. -/
inductive EvalError where
  /-- A variable that the value depends on is not bound. -/
  | unbound (name : String)
  /-- A divisor is zero. -/
  | divideByZero
  /-- A function was given the wrong number of arguments. -/
  | wrongCount (error : CountError)
deriving DecidableEq

/-- The text of an evaluation error. -/
def EvalError.message : EvalError → String
  | .unbound name => "No value was provided for \"" ++ name ++ "\""
  | .divideByZero => "Attempted to divide by zero"
  | .wrongCount error => error.message

end PolyAlgebra
