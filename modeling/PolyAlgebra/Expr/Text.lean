/-
The texts of an expression.

An operator stands between its operands, and each operand is in parentheses.  The LaTeX
form differs in one point: a quotient is a fraction.
-/
import PolyAlgebra.Expr.Basic

namespace PolyAlgebra.Expr

variable {α : Type} [Number α]

/-- Operands in parentheses about an operator. -/
def operationText (op : Operator) (left right : String) : String :=
  "(" ++ left ++ ") " ++ op.symbol ++ " (" ++ right ++ ")"

/-- A function before its arguments in parentheses. -/
def callText (f : Elementary) (arguments : List String) : String :=
  f.name ++ "(" ++ ", ".intercalate arguments ++ ")"

mutual

/-- The text of an expression. -/
def text : Expr α → String
  | .sum terms => TermSum.text terms
  | .binary op left right => operationText op (text left) (text right)
  | .call f arguments => callText f (texts arguments)

/-- The texts of several expressions. -/
def texts : List (Expr α) → List String
  | [] => []
  | e :: rest => text e :: texts rest

end

mutual

/-- The LaTeX form of an expression. -/
def latex : Expr α → String
  | .sum terms => TermSum.text terms
  | .binary .divide left right => "\\frac\x7b(" ++ latex left ++ ")\x7d\x7b(" ++ latex right ++ ")\x7d"
  | .binary op left right => operationText op (latex left) (latex right)
  | .call f arguments => callText f (latexAll arguments)

/-- The LaTeX forms of several expressions. -/
def latexAll : List (Expr α) → List String
  | [] => []
  | e :: rest => latex e :: latexAll rest

end

/-- The expression as the definition of a function of its variables. -/
def describe (e : Expr α) : String :=
  "f(" ++ ", ".intercalate e.variableNames ++ ") = " ++ e.text

end PolyAlgebra.Expr
