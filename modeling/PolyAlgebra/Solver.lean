/-
Roots of expressions.

A sum in one variable whose degrees are at most one, or at most two, is solved by formula,
and all its roots are found.  Anything else gets one root at most, by search.  The search
first looks over whole numbers for a point where the expression is closest to zero,
sweeping one variable after the other; from there it repeatedly subtracts the value of the
expression from every coordinate, until the value is small, the iterations are used up, or
the next point has no finite value.

Each root comes with the absolute value that the expression has there.
-/
import PolyAlgebra.Vector

namespace PolyAlgebra

/-- Why no root was found. -/
inductive SolveError where
  /-- The expression has a value at none of the points tried. -/
  | evaluation (error : EvalError)
  /-- The expression has a finite value at none of the points tried. -/
  | noStartingPoint
deriving DecidableEq

/-- The text of a solve error. -/
def SolveError.message : SolveError → String
  | .evaluation _ => "Evaluation failed"
  | .noStartingPoint => "Unable to find anywhere to start searching for a root"

/-- A point and how far from zero the expression is there. -/
structure Root (α : Type) [Number α] where
  /-- The value of each variable. -/
  point : Vector α
  /-- The absolute value of the expression at the point. -/
  residual : α

/-- How roots are searched for. -/
structure Solver (α : Type) where
  /-- A value below this is close enough to zero. -/
  epsilon : α
  /-- How many times a point may be improved. -/
  maxIterations : Nat
  /-- The lowest whole number tried. -/
  low : Int
  /-- The highest whole number tried. -/
  high : Int

namespace Solver

variable {α : Type} [Number α]

/-- A millionth is close enough; a hundred iterations; whole numbers up to a hundred. -/
def standard : Solver α := ⟨Number.tolerance, 100, -100, 100⟩

/-! ### Formulas -/

/-- The sum of the coefficients of the terms with an exponent. -/
def coefficientOf (name : String) (exponent : α) (terms : List (Term α)) : α :=
  (terms.filter (fun t => t.exponent name == exponent)).foldl
    (fun sum t => sum + t.coefficient) 0

/-- The root of one variable at a value. -/
def rootAt (name : String) (x residual : α) : Root α :=
  ⟨Vector.ofNumbers (NameMap.empty.insert name x), Number.abs residual⟩

/-- The roots of `m * x + b`. -/
def linearRoots (name : String) (m b : α) : List (Root α) :=
  if m == 0 then []
  else
    let x := -b / m
    [rootAt name x (m * x + b)]

/-- The zeros of `a * x ^ 2 + b * x + c` by the quadratic formula, rising.  The second is
left out when it differs from the first by rounding only. -/
def quadraticZeros (a b c : α) : List α :=
  let two : α := ((2 : Int) : α)
  let four : α := ((4 : Int) : α)
  let discriminant := b * b - four * a * c
  if discriminant < 0 then []
  else
    let first := (-b - Number.sqrt discriminant) / (two * a)
    let second := (-b + Number.sqrt discriminant) / (two * a)
    if Number.isRelativelyEqual first second then [first]
    else stableSort Number.order [first, second]

/-- The roots of `a * x ^ 2 + b * x + c`. -/
def quadraticRoots (name : String) (a b c : α) : List (Root α) :=
  (quadraticZeros a b c).map (fun x => rootAt name x (a * x * x + b * x + c))

/-- Whether every term has one of the given degrees. -/
def hasDegrees (degrees : List α) (terms : List (Term α)) : Bool :=
  terms.all (fun t => degrees.any (fun d => t.degree == d))

/-- The roots of a sum in one variable, if a formula gives them. -/
def formulaRoots? (name : String) (terms : List (Term α)) : Option (List (Root α)) :=
  let two : α := ((2 : Int) : α)
  let b := coefficientOf name 0 terms
  let m := coefficientOf name 1 terms
  let a := coefficientOf name two terms
  if hasDegrees [0, 1] terms then some (linearRoots name m b)
  else if hasDegrees [0, 1, two] terms then some (quadraticRoots name a m b)
  else none

/-! ### Where to start -/

/-- The expression as a function of a point. -/
def valueAt (e : Expr α) (point : NameMap α) : Except EvalError α := e.value point.get?

/-- What a search has seen so far. -/
structure Search (α : Type) where
  /-- The best point, or the first one if none has a finite value. -/
  point : NameMap α
  /-- The value at the best point. -/
  best : Option α
  /-- The last failure to evaluate. -/
  failure : Option EvalError

/-- Whether a value is finite and closer to zero than the best so far. -/
def isBetter (value : α) (best : Option α) : Bool :=
  Number.isFinite value &&
    match best with
    | some current => decide (Number.abs value < Number.abs current)
    | none => true

/-- Look at one more point. -/
def consider (e : Expr α) (search : Search α) (candidate : NameMap α) : Search α :=
  match valueAt e candidate with
  | .ok value =>
    if isBetter value search.best then { search with point := candidate, best := some value }
    else search
  | .error error => { search with failure := some error }

/-- The whole numbers from one to another, none if they fall. -/
def wholeNumbers (low high : Int) : List Int :=
  (List.range (high - low + 1).toNat).map (fun (k : Nat) => low + (k : Int))

/-- Try every whole number for one variable, the others as in the best point so far. -/
def sweep (solver : Solver α) (e : Expr α) (search : Search α) (name : String) : Search α :=
  (wholeNumbers solver.low solver.high).foldl
    (fun seen (n : Int) => consider e seen (search.point.insert name (n : α))) search

/-- The search over whole numbers, from the point with all coordinates lowest. -/
def search (solver : Solver α) (e : Expr α) (names : List String) : Search α :=
  let first := NameMap.ofList (names.map (fun name => (name, (solver.low : α))))
  names.foldl (sweep solver e) (consider e ⟨first, none, none⟩ first)

/-- The point to start from and the value there. -/
def startingPoint (solver : Solver α) (e : Expr α) (names : List String) :
    Except SolveError (NameMap α × α) :=
  let found := search solver e names
  match found.best, found.failure with
  | some value, _ => .ok (found.point, value)
  | none, some error => .error (.evaluation error)
  | none, none => .error .noStartingPoint

/-! ### Iteration -/

/-- Improve a point a number of times at most. -/
def iterate (e : Expr α) (epsilon : α) : Nat → NameMap α × α → NameMap α × α
  | 0, found => found
  | iterations + 1, (point, value) =>
    if Number.abs value < epsilon then (point, value)
    else
      let next := point.map (fun x => x - value)
      match valueAt e next with
      | .ok nextValue =>
        if Number.isFinite nextValue then iterate e epsilon iterations (next, nextValue)
        else (point, value)
      | .error _ => (point, value)

/-- One root by search. -/
def solveIteratively (solver : Solver α) (e : Expr α) (names : List String) :
    Except SolveError (Root α) :=
  (fun start =>
    let found := iterate e solver.epsilon solver.maxIterations start
    ⟨Vector.ofNumbers found.1, Number.abs found.2⟩) <$> startingPoint solver e names

/-- The roots by formula, if the expression is a sum in one variable that has one. -/
def closedForm? (e : Expr α) : Option (List (Root α)) :=
  match e.terms?, e.variableNames with
  | some terms, [name] => formulaRoots? name terms
  | _, _ => none

/-- The roots of an expression. -/
def solve (solver : Solver α) (e : Expr α) : Except SolveError (List (Root α)) :=
  let simplified := e.simplify
  match closedForm? simplified with
  | some roots => .ok roots
  | none => ([·]) <$> solver.solveIteratively simplified simplified.variableNames

end Solver

end PolyAlgebra
