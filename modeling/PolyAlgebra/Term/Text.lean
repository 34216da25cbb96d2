/-
The text of a term.

A coefficient of 1 is left out and -1 leaves its sign, unless the term is a constant.  A
lone variable follows the coefficient directly; several are written in parentheses, since
names side by side would read as one name.
-/
import PolyAlgebra.Term.Basic

namespace PolyAlgebra.Term

variable {α : Type} [Number α]

/-- The coefficient as it stands before variables. -/
def coefficientText (coefficient : α) : String :=
  if coefficient == -1 then "-"
  else if coefficient == 1 then ""
  else Number.text coefficient

/-- A variable with its exponent, which is left out when it is 1. -/
def factorText (e : String × α) : String :=
  if e.2 == 1 then e.1 else e.1 ++ "^" ++ Number.text e.2

/-- Variables with their exponents, in parentheses if there are several. -/
def factorsText : List (String × α) → String
  | [] => ""
  | [e] => factorText e
  | es => es.foldl (fun text e => text ++ "(" ++ factorText e ++ ")") ""

/-- The text of a term. -/
def text (t : Term α) : String :=
  if t.isConstant then Number.text t.coefficient
  else coefficientText t.coefficient ++ factorsText t.powers.entries

end PolyAlgebra.Term

namespace PolyAlgebra

/-- The text of a failure on a term. -/
def TermError.message {α : Type} [Number α] : TermError α → String
  | .zeroDivisor dividend => "Attempted to divide \"" ++ dividend.text ++ "\" by a zero term"
  | .needsLogarithm term name =>
    "Integrating \"" ++ term.text ++ "\" with respect to " ++ name ++ " requires a logarithm"

end PolyAlgebra
