/-
The elementary functions an expression may call.

Only their names and shapes are fixed here: which there are, how they are written, how
many arguments each takes.  What a function does to a number is left to the numbers.
-/
namespace PolyAlgebra

/-- The elementary functions of one argument.  Angles are in radians. -/
inductive UnaryFunction where
  | sine
  | cosine
  | tangent
  | arcSine
  | arcCosine
  | arcTangent
  | hyperbolicSine
  | hyperbolicCosine
  | hyperbolicTangent
  | inverseHyperbolicSine
  | inverseHyperbolicCosine
  | inverseHyperbolicTangent
  | naturalLogarithm
deriving DecidableEq

/-- The name of a function of one argument. -/
def UnaryFunction.name : UnaryFunction → String
  | .sine => "sin"
  | .cosine => "cos"
  | .tangent => "tan"
  | .arcSine => "asin"
  | .arcCosine => "acos"
  | .arcTangent => "atan"
  | .hyperbolicSine => "sinh"
  | .hyperbolicCosine => "cosh"
  | .hyperbolicTangent => "tanh"
  | .inverseHyperbolicSine => "asinh"
  | .inverseHyperbolicCosine => "acosh"
  | .inverseHyperbolicTangent => "atanh"
  | .naturalLogarithm => "ln"

/-- The elementary functions. -/
inductive Elementary where
  /-- A function of one argument. -/
  | unary (f : UnaryFunction)
  /-- The angle of the point with the given ordinate and abscissa, in this order. -/
  | angle
  /-- The logarithm to the base given first of the value given second. -/
  | logarithm
deriving DecidableEq

namespace Elementary

/-- How many arguments the function takes. -/
def arity : Elementary → Nat
  | .unary _ => 1
  | .angle => 2
  | .logarithm => 2

/-- The name of the function. -/
def name : Elementary → String
  | .unary f => f.name
  | .angle => "atan2"
  | .logarithm => "log"

/-- Every function. -/
def all : List Elementary :=
  [.unary .sine, .unary .cosine, .unary .tangent, .unary .arcSine, .unary .arcCosine,
    .unary .arcTangent, .unary .hyperbolicSine, .unary .hyperbolicCosine,
    .unary .hyperbolicTangent, .unary .inverseHyperbolicSine,
    .unary .inverseHyperbolicCosine, .unary .inverseHyperbolicTangent,
    .unary .naturalLogarithm, .angle, .logarithm]

/-- The function of a name. -/
def ofName? (name : String) : Option Elementary := all.find? (·.name == name)

end Elementary

end PolyAlgebra
