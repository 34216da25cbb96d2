/-
Sums of terms.

A sum is a list of terms in the order they are stored.  `reduce` brings it into canonical
form: terms with the same powers are merged, zeros are dropped, what is left is sorted, and
a sum of nothing is the zero term.  Merging goes term by term.  Each new term is added to
the first one with its powers; if the two cancel, both go; if there is none, it is appended.

Reduced sums have at most one term for each set of powers, so equality of sums compares
them as bags of terms.  It is decided up to the tolerance, and by a fixed search: each term
on the left takes the first term on the right that is approximately equal to it, and the
last remaining term moves into the place that was taken.
-/
import PolyAlgebra.Sorting
import PolyAlgebra.Term.Order
import PolyAlgebra.Term.Text

namespace PolyAlgebra

/-- Terms to be added up, in the order they are stored. -/
abbrev TermSum (α : Type) [Number α] := List (Term α)

namespace TermSum

variable {α : Type} [Number α]

/-! ### Canonical form -/

/-- Add a term that is not zero to a sum of terms with different powers. -/
def mergeTerm (t : Term α) : TermSum α → TermSum α
  | [] => [t]
  | s :: rest =>
    if s.hasPowersOf t then
      let merged := s.withCoefficient (s.coefficient + t.coefficient)
      if merged.isZero then rest else merged :: rest
    else s :: mergeTerm t rest

/-- One step of merging: zeros are passed over. -/
def mergeStep (sum : TermSum α) (t : Term α) : TermSum α :=
  if t.isZero then sum else mergeTerm t sum

/-- Merge terms with the same powers and drop zeros. -/
def merge (terms : TermSum α) : TermSum α := terms.foldl mergeStep []

/-- A sum of nothing is the zero term. -/
def orZero : TermSum α → TermSum α
  | [] => [Term.zero]
  | t :: rest => t :: rest

/-- The canonical form of a sum. -/
def reduce (terms : TermSum α) : TermSum α :=
  stableSort Term.canonicalOrder (orZero (merge terms))

/-- The sum of one term. -/
def ofTerm (t : Term α) : TermSum α := reduce [t]

/-- A number as a sum. -/
def ofNumber (value : α) : TermSum α := ofTerm (Term.ofNumber value)

/-! ### Asking about a sum -/

/-- Whether every term is zero up to the tolerance. -/
def isZero (terms : TermSum α) : Bool := terms.all (fun t => t.approxEq Term.zero)

/-- The largest degree of a term, zero for no terms. -/
def degree (terms : TermSum α) : α :=
  if terms.isEmpty then 0 else Number.largest (terms.map Term.degree)

/-- Whether no term mentions a variable. -/
def isConstant (terms : TermSum α) : Bool := terms.all Term.isConstant

/-- The sum of the coefficients. -/
def coefficientTotal (terms : TermSum α) : α := Number.total (terms.map Term.coefficient)

/-- The first of two terms in canonical order, the left one of equals. -/
def firstOf (t other : Term α) : Term α :=
  if t.canonicalOrder other = .gt then other else t

/-- The first term in canonical order, wherever it is stored. -/
def leading? : TermSum α → Option (Term α)
  | [] => none
  | t :: rest => some (rest.foldl firstOf t)

/-- The value of a sum; the first term without a value decides the error. -/
def value (terms : TermSum α) (bindings : Bindings α) : Except EvalError α :=
  Number.total <$> terms.mapM (fun t => t.value bindings)

/-! ### Equality up to the tolerance -/

/-- Take out the element at an index and let the last element fill its place. -/
def swapRemove {β : Type} (xs : List β) (index : Nat) : List β :=
  match xs.getLast? with
  | some last => (xs.set index last).dropLast
  | none => []

/-- Match each term on the left with a different one on the right, using all of them. -/
def matchTerms : TermSum α → TermSum α → Bool
  | [], right => right.isEmpty
  | t :: rest, right =>
    match right.findIdx? (fun candidate => candidate.approxEq t) with
    | some index => matchTerms rest (swapRemove right index)
    | none => false

/-- Whether two sums have the same terms up to the tolerance, zeros aside. -/
def approxEq (left right : TermSum α) : Bool :=
  let left := left.filter (fun t => !t.isZero)
  let right := right.filter (fun t => !t.isZero)
  left.length == right.length && matchTerms left right

/-! ### Arithmetic -/

/-- The opposite of every term. -/
def negate (terms : TermSum α) : TermSum α := terms.map Term.negate

/-- Every product of a term on the left and a term on the right, the left ones outermost. -/
def products (left right : TermSum α) : TermSum α :=
  left.flatMap (fun l => right.map (fun r => l.multiply r))

/-! ### Text -/

/-- A term after the first one, joined by its sign. -/
def laterText (t : Term α) : String :=
  if t.coefficient < 0 then " - " ++ t.negate.text else " + " ++ t.text

/-- The text of sorted terms. -/
def sortedText : TermSum α → String
  | [] => "0"
  | t :: rest => rest.foldl (fun text later => text ++ laterText later) t.text

/-- The text of a sum: its terms in canonical order, zeros left out. -/
def text (terms : TermSum α) : String :=
  sortedText (stableSort Term.canonicalOrder (terms.filter (fun t => !t.isZero)))

end TermSum

end PolyAlgebra
