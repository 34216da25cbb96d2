/-
Values of expressions, and replacing variables.

Evaluation needs a value for every variable and goes from left to right, so the first
failure on the way is the one reported.  Substitution replaces the variables that are bound
and leaves the others; composition replaces one variable by an expression.

Composition spells a power of the replaced variable out as a product of copies when the
exponent is a whole number, and as a power otherwise.  Terms that do not mention the
variable are kept together in one sum in front.
-/
import PolyAlgebra.Expr.Basic

namespace PolyAlgebra

/-- An operator applied to two numbers. -/
def Operator.apply {α : Type} [Number α] (op : Operator) (left right : α) :
    Except EvalError α :=
  match op with
  | .add => .ok (left + right)
  | .subtract => .ok (left - right)
  | .multiply => .ok (left * right)
  | .divide => if right == 0 then .error .divideByZero else .ok (left / right)
  | .power => .ok (Number.pow left right)

namespace Expr

variable {α : Type} [Number α]

/-! ### Evaluation -/

/-- The value of a function, or the wrong number of its arguments. -/
def applyFunction (f : Elementary) (arguments : List α) : Except EvalError α :=
  match Number.apply f arguments with
  | some value => .ok value
  | none => .error (.wrongCount (.arguments f arguments.length))

mutual

/-- The value of an expression. -/
def value (e : Expr α) (bindings : Bindings α) : Except EvalError α :=
  match e with
  | .sum terms => TermSum.value terms bindings
  | .binary op left right => do
    let left ← value left bindings
    let right ← value right bindings
    op.apply left right
  | .call f arguments => do
    let arguments ← values arguments bindings
    applyFunction f arguments

/-- The values of several expressions. -/
def values (es : List (Expr α)) (bindings : Bindings α) : Except EvalError (List α) :=
  match es with
  | [] => .ok []
  | e :: rest => do
    let first ← value e bindings
    let others ← values rest bindings
    .ok (first :: others)

end

/-! ### Substitution -/

mutual

/-- The expression with the bound variables replaced by their values. -/
def substitute (e : Expr α) (bindings : Bindings α) : Expr α :=
  match e with
  | .sum terms => ofTerms (terms.map (fun t => t.partiallyEvaluate bindings))
  | .binary op left right => .binary op (substitute left bindings) (substitute right bindings)
  | .call f arguments => .call f (substituteAll arguments bindings)

/-- Replace the bound variables in several expressions. -/
def substituteAll (es : List (Expr α)) (bindings : Bindings α) : List (Expr α) :=
  match es with
  | [] => []
  | e :: rest => substitute e bindings :: substituteAll rest bindings

end

theorem substituteAll_eq_map (es : List (Expr α)) (bindings : Bindings α) :
    substituteAll es bindings = es.map (fun e => e.substitute bindings) := by
  induction es with
  | nil => rfl
  | cons e rest ih => simp [substituteAll, ih]

/-! ### Composition -/

/-- A product of copies of an expression; at least one copy is taken. -/
def copies (base : Expr α) : Nat → Expr α
  | 0 => base
  | 1 => base
  | count + 2 => .binary .multiply (copies base (count + 1)) base

/-- An expression raised to a number. -/
def raise (base : Expr α) (exponent : α) : Expr α :=
  match Number.whole? exponent with
  | none => .binary .power base (ofNumber exponent)
  | some n =>
    if n < 0 then .binary .divide one (copies base n.natAbs) else copies base n.natAbs

/-- What is left of a term without its power of a variable. -/
def withoutPower (t : Term α) (name : String) : Term α :=
  t.partiallyEvaluate (fun other => if other == name then some 1 else none)

/-- A term with an expression in place of a variable. -/
def composeTerm (name : String) (replacement : Expr α) (t : Term α) : Expr α :=
  .binary .multiply (ofTerm (withoutPower t name)) (raise replacement (t.exponent name))

/-- Whether a term mentions a variable. -/
def touches (name : String) (t : Term α) : Bool := !(t.exponent name == 0)

/-- A sum of terms with an expression in place of a variable. -/
def composeSum (name : String) (replacement : Expr α) (terms : List (Term α)) : Expr α :=
  let untouched := terms.filter (fun t => !touches name t)
  match (terms.filter (touches name)).map (composeTerm name replacement) with
  | [] => ofTerms untouched
  | piece :: pieces =>
    let composed := pieces.foldl (.binary .add) piece
    if untouched.isEmpty then composed else .binary .add (ofTerms untouched) composed

mutual

/-- The expression with another one in place of a variable. -/
def compose (e : Expr α) (name : String) (replacement : Expr α) : Expr α :=
  match e with
  | .sum terms => composeSum name replacement terms
  | .binary op left right =>
    .binary op (compose left name replacement) (compose right name replacement)
  | .call f arguments => .call f (composeAll arguments name replacement)

/-- Put an expression in place of a variable in several expressions. -/
def composeAll (es : List (Expr α)) (name : String) (replacement : Expr α) : List (Expr α) :=
  match es with
  | [] => []
  | e :: rest => compose e name replacement :: composeAll rest name replacement

end

theorem composeAll_eq_map (es : List (Expr α)) (name : String) (replacement : Expr α) :
    composeAll es name replacement = es.map (fun e => e.compose name replacement) := by
  induction es with
  | nil => rfl
  | cons e rest ih => simp [composeAll, ih]

end Expr

end PolyAlgebra
