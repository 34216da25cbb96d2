/-
Collapsing an expression into a sum of terms.

Sums, differences and products always collapse once their operands do, quotients when the
division leaves nothing, calls when their arguments are constant, and powers never.
`collapse` gives the sum or says what stands in the way.  `simplify` collapses as much as
it can: the whole expression, or else its operands one by one.

The degree of an operation is that of the sum it collapses into, and otherwise the larger
degree of its operands; so it is the degree of the simplified expression.
-/
import PolyAlgebra.Expr.Basic
import PolyAlgebra.TermSum.Division

namespace PolyAlgebra

/-- The sum that an operator makes of two sums. -/
def TermSum.combine {α : Type} [Number α] (op : Operator) (left right : TermSum α) :
    Except (Obstacle α) (TermSum α) :=
  match op with
  | .add => .ok (reduce (left ++ right))
  | .subtract => .ok (reduce (left ++ right.negate))
  | .multiply => .ok (reduce (products left right))
  | .divide => divide left right
  | .power => .error .power

namespace Expr

variable {α : Type} [Number α]

mutual

/-- The sum of terms in canonical form that an expression collapses into. -/
def collapse : Expr α → Except (Obstacle α) (List (Term α))
  | .sum terms => .ok (TermSum.reduce terms)
  | .binary op left right =>
    if op = .power then .error .power
    else do
      let left ← collapse left
      let right ← collapse right
      TermSum.combine op left right
  | .call f arguments => do
    let values ← constants arguments
    match Number.apply f values with
    | some value => .ok (TermSum.ofNumber value)
    | none => .error (.wrongCount (.arguments f values.length))

/-- The values of arguments that all collapse into constants. -/
def constants : List (Expr α) → Except (Obstacle α) (List α)
  | [] => .ok []
  | e :: rest => do
    let terms ← collapse e
    if TermSum.isConstant terms then
      let values ← constants rest
      .ok (TermSum.coefficientTotal terms :: values)
    else .error .variableArgument

end

/-- The expression as a single sum, if it collapses. -/
def trySimplify (e : Expr α) : Option (Expr α) := e.collapse.toOption.map .sum

mutual

/-- Collapse as much of an expression as possible. -/
def simplify : Expr α → Expr α
  | .sum terms => ofTerms terms
  | .binary op left right =>
    match collapse (.binary op left right) with
    | .ok terms => .sum terms
    | .error _ => .binary op (simplify left) (simplify right)
  | .call f arguments =>
    match collapse (.call f arguments) with
    | .ok terms => .sum terms
    | .error _ => .call f (simplifyAll arguments)

/-- Simplify several expressions. -/
def simplifyAll : List (Expr α) → List (Expr α)
  | [] => []
  | e :: rest => simplify e :: simplifyAll rest

end

theorem simplifyAll_eq_map (es : List (Expr α)) : simplifyAll es = es.map simplify := by
  induction es with
  | nil => rfl
  | cons e rest ih => simp [simplifyAll, ih]

mutual

/-- The degree of an expression. -/
def degree : Expr α → α
  | .sum terms => TermSum.degree terms
  | .binary op left right =>
    match collapse (.binary op left right) with
    | .ok terms => TermSum.degree terms
    | .error _ => Number.largest [degree left, degree right]
  | .call _ arguments => Number.largest (0 :: degrees arguments)

/-- The degrees of several expressions. -/
def degrees : List (Expr α) → List α
  | [] => []
  | e :: rest => degree e :: degrees rest

end

theorem degrees_eq_map (es : List (Expr α)) : degrees es = es.map degree := by
  induction es with
  | nil => rfl
  | cons e rest ih => simp [degrees, ih]

/-- How the degrees of two expressions compare. -/
def compareDegree? (e other : Expr α) : Option Ordering :=
  Number.compare? e.degree other.degree

end Expr

end PolyAlgebra
