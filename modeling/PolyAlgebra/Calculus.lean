/-
Derivatives and antiderivatives.

Sums of terms have the power rule, and sums, differences, products and quotients their own
rules; each result is simplified as it is built.  Powers and calls have no derivative here.
Antiderivatives exist for sums and differences; a product has one if it collapses into a
sum of terms.  A refusal names the node that stands in the way.
-/
import PolyAlgebra.Expr.Collapse
import PolyAlgebra.Expr.Value
import PolyAlgebra.Vector

namespace PolyAlgebra

/-- What stands at the root of an expression that is not a sum of terms. -/
inductive Head where
  | operator (op : Operator)
  | function (f : Elementary)
deriving DecidableEq

/-- How the root of an expression is written. -/
def Head.name : Head → String
  | .operator op => op.symbol
  | .function f => f.name

/-- Why there is no derivative or no antiderivative. -/
inductive CalculusError (α : Type) [Number α] where
  /-- There is no rule for the derivative. -/
  | notDifferentiable (head : Head)
  /-- There is no rule for the antiderivative. -/
  | notIntegrable (head : Head)
  /-- A term has no antiderivative. -/
  | term (error : TermError α)

/-- The text of a refusal. -/
def CalculusError.message {α : Type} [Number α] : CalculusError α → String
  | .notDifferentiable head => "Unable to differentiate \"" ++ head.name ++ "\""
  | .notIntegrable head => "Unable to integrate \"" ++ head.name ++ "\""
  | .term error => error.message

namespace Expr

variable {α : Type} [Number α]

/-! ### Derivatives -/

/-- The simplified derivative of an operation from its operands and their derivatives. -/
def combineDerivatives (op : Operator) (left right dleft dright : Expr α) :
    Except (CalculusError α) (Expr α) :=
  match op with
  | .add => .ok (simplify (.binary .add dleft dright))
  | .subtract => .ok (simplify (.binary .subtract dleft dright))
  | .multiply => .ok (simplify (.binary .add (simplify (.binary .multiply left dright))
      (simplify (.binary .multiply right dleft))))
  | .divide => .ok (quotientDerivative left right dleft dright)
  | .power => .error (.notDifferentiable (.operator .power))
where
  /-- The quotient rule.  A zero numerator makes the whole quotient zero. -/
  quotientDerivative (left right dleft dright : Expr α) : Expr α :=
    let numerator := simplify (.binary .subtract (simplify (.binary .multiply right dleft))
      (simplify (.binary .multiply left dright)))
    if numerator.isZero then zero
    else
      let quotient := .binary .divide numerator (simplify (.binary .multiply right right))
      (trySimplify quotient).getD quotient

/-- The derivative with respect to a variable. -/
def differentiate (e : Expr α) (name : String) : Except (CalculusError α) (Expr α) :=
  match e with
  | .sum terms => .ok (ofTerms (terms.map (fun t => t.differentiate name)))
  | .binary op left right =>
    if op = .power then .error (.notDifferentiable (.operator .power))
    else do
      let dleft ← differentiate left name
      let dright ← differentiate right name
      combineDerivatives op left right dleft dright
  | .call f _ => .error (.notDifferentiable (.function f))

/-- The derivatives with respect to every variable. -/
def gradient (e : Expr α) : Except (CalculusError α) (Vector α) :=
  (fun components => ⟨NameMap.ofList components⟩) <$>
    e.variableNames.mapM (fun name => (fun d => (name, d)) <$> e.differentiate name)

/-! ### Antiderivatives -/

/-- The antiderivative of a sum, term by term. -/
def integrateTerms (terms : List (Term α)) (name : String) :
    Except (CalculusError α) (Expr α) :=
  match terms.mapM (fun t => t.integrate name) with
  | .ok integrals => .ok (ofTerms integrals)
  | .error error => .error (.term error)

/-- The antiderivative with respect to a variable, without a constant of integration. -/
def integrate (e : Expr α) (name : String) : Except (CalculusError α) (Expr α) :=
  match e with
  | .sum terms => integrateTerms terms name
  | .binary .add left right => do
    let left ← integrate left name
    let right ← integrate right name
    .ok (simplify (.binary .add left right))
  | .binary .subtract left right => do
    let left ← integrate left name
    let right ← integrate right name
    .ok (simplify (.binary .subtract left right))
  | .binary .multiply left right =>
    match collapse (.binary .multiply left right) with
    | .ok terms => integrateTerms terms name
    | .error _ => .error (.notIntegrable (.operator .multiply))
  | .binary .divide _ _ => .error (.notIntegrable (.operator .divide))
  | .binary .power _ _ => .error (.notIntegrable (.operator .power))
  | .call f _ => .error (.notIntegrable (.function f))

/-- The integral between two bounds; other variables stay. -/
def integrateOver (e : Expr α) (name : String) (start stop : α) :
    Except (CalculusError α) (Expr α) := do
  let antiderivative ← e.integrate name
  let valueAt := fun bound : α =>
    antiderivative.substitute (fun other => if other == name then some bound else none)
  .ok (simplify (.binary .subtract (valueAt stop) (valueAt start)))

end Expr

end PolyAlgebra
