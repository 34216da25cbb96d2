/-
Equations.

An equation is kept as the difference of its sides, so that its solutions are the roots of
that expression.  In a text the first equals sign divides the sides; the left side is read
first, and each side counts positions from its own start.  A text without an equals sign is
an expression that is to be zero.
-/
import PolyAlgebra.Expr.Parse
import PolyAlgebra.Solver

namespace PolyAlgebra

/-- An equation between two expressions. -/
structure Equation (α : Type) [Number α] where
  /-- The left side less the right side. -/
  body : Expr α

namespace Equation

variable {α : Type} [Number α]

/-- The equation of two sides. -/
def ofSides (left right : Expr α) : Equation α := ⟨.binary .subtract left right⟩

/-- The text before the first equals sign, and the text after it if there is one. -/
def splitSides (text : String) : String × Option String :=
  let left := text.toList.takeWhile (· != '=')
  match text.toList.dropWhile (· != '=') with
  | [] => (String.ofList left, none)
  | _ :: right => (String.ofList left, some (String.ofList right))

/-- The equation that a text stands for. -/
def parse (text : String) : Except ParseError (Equation α) :=
  match splitSides text with
  | (body, none) => Equation.mk <$> Expr.parse body
  | (left, some right) => do
    let left ← Expr.parse left
    let right ← Expr.parse right
    .ok (ofSides left right)

/-- The solutions of an equation. -/
def solve (solver : Solver α) (equation : Equation α) :
    Except SolveError (List (Root α)) :=
  solver.solve equation.body

end Equation

end PolyAlgebra
