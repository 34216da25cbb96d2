/-
Vectors: expressions filed under the names of components.

Operations build expression nodes and simplify nothing.  Where two vectors are combined, a
component that only one of them has is passed through unchanged.
-/
import PolyAlgebra.Expr.Collapse
import PolyAlgebra.Expr.Equality
import PolyAlgebra.Expr.Text
import PolyAlgebra.Expr.Value

namespace PolyAlgebra

/-- Expressions filed under the names of components. -/
structure Vector (α : Type) [Number α] where
  /-- The component of each name. -/
  components : NameMap (Expr α)

namespace Vector

variable {α : Type} [Number α]

/-- No components. -/
def empty : Vector α := ⟨NameMap.empty⟩

/-- The component of a name. -/
def get? (v : Vector α) (name : String) : Option (Expr α) := v.components.get? name

/-- The vector with a component put in, in place of the one that was there. -/
def insert (v : Vector α) (name : String) (e : Expr α) : Vector α :=
  ⟨v.components.insert name e⟩

/-- The number of components. -/
def dimension (v : Vector α) : Nat := v.components.size

/-- Whether there are no components. -/
def isEmpty (v : Vector α) : Bool := v.components.isEmpty

/-- The vector with every component changed. -/
def map (f : Expr α → Expr α) (v : Vector α) : Vector α := ⟨v.components.map f⟩

/-! ### One scalar for all components -/

/-- Add an expression to every component. -/
def scalarAdd (v : Vector α) (scalar : Expr α) : Vector α := v.map (.binary .add · scalar)

/-- Subtract an expression from every component. -/
def scalarSubtract (v : Vector α) (scalar : Expr α) : Vector α :=
  v.map (.binary .subtract · scalar)

/-- Multiply every component by an expression. -/
def scalarMultiply (v : Vector α) (scalar : Expr α) : Vector α :=
  v.map (.binary .multiply · scalar)

/-- Divide every component by an expression. -/
def scalarDivide (v : Vector α) (scalar : Expr α) : Vector α :=
  v.map (.binary .divide · scalar)

/-! ### Component by component -/

/-- Combine the components that both vectors have and pass the others through. -/
def zipWith (combine : Expr α → Expr α → Expr α) (v other : Vector α) : Vector α :=
  ⟨other.components.overlay (fun right left =>
    match right with
    | some right => combine left right
    | none => left) v.components⟩

/-- The sum. -/
def add (v other : Vector α) : Vector α := v.zipWith (.binary .add) other

/-- The difference. -/
def subtract (v other : Vector α) : Vector α := v.zipWith (.binary .subtract) other

/-- The product, component by component. -/
def multiply (v other : Vector α) : Vector α := v.zipWith (.binary .multiply) other

/-- The products of the components that both vectors have, in name order. -/
def sharedProducts (v other : Vector α) : List (Expr α) :=
  v.components.entries.filterMap (fun e =>
    (other.components.get? e.1).map (.binary .multiply e.2))

/-- The vector whose components are numbers. -/
def ofNumbers (m : NameMap α) : Vector α := ⟨m.map Expr.ofNumber⟩

/-- The sum of the products of the components that both vectors have. -/
def dotProduct (v other : Vector α) : Expr α :=
  match v.sharedProducts other with
  | [] => Expr.zero
  | product :: rest => rest.foldl (.binary .add) product

/-! ### One component

A component that is not there counts as zero, except that multiplying it puts the factor
in its place.
-/

/-- Change one component, or put one in where it is missing. -/
def update (v : Vector α) (name : String) (e : Expr α)
    (combine : Expr α → Expr α → Expr α) (missing : Expr α → Expr α) : Vector α :=
  v.insert name
    (match v.get? name with
    | some old => combine old e
    | none => missing e)

/-- Add to one component. -/
def addTo (v : Vector α) (name : String) (e : Expr α) : Vector α :=
  v.update name e (.binary .add) id

/-- Subtract from one component. -/
def subtractFrom (v : Vector α) (name : String) (e : Expr α) : Vector α :=
  v.update name e (.binary .subtract) Expr.negate

/-- Multiply one component. -/
def multiplyOn (v : Vector α) (name : String) (e : Expr α) : Vector α :=
  v.update name e (.binary .multiply) id

/-- Divide one component. -/
def divideOn (v : Vector α) (name : String) (e : Expr α) : Vector α :=
  v.update name e (.binary .divide) (.binary .divide Expr.zero)

/-! ### Simplifying, evaluating, comparing, showing -/

/-- Simplify every component. -/
def simplify (v : Vector α) : Vector α := v.map Expr.simplify

/-- The values of the components; the first one without a value decides the error. -/
def evaluate (v : Vector α) (bindings : Bindings α) : Except EvalError (NameMap α) :=
  v.components.mapExcept (fun e => e.value bindings)

/-- Whether two vectors have the same components up to the tolerance. -/
def approxEq (v other : Vector α) : Bool := v.components.agrees Expr.approxEq other.components

/-- The text of a vector. -/
def text (v : Vector α) : String :=
  "\x7b" ++ ", ".intercalate (v.components.entries.map (fun e => e.1 ++ ": " ++ e.2.text)) ++
    "\x7d"

end Vector

end PolyAlgebra
