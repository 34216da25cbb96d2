/-
Expressions: sums of terms joined by operators and elementary functions.

Building an expression does no algebra; an operator node holds its operands as they are.
The sum at a leaf is stored as it was given, reduced or not.

A call holds a list of arguments, so a tree may give a function the wrong number of them.
The checked constructors `ofOperands` and `ofCall` refuse to build such a node, and
`WellFormed` says that there is none.  Functions on expressions come in pairs, one for an
expression and one for a list of arguments, and `Expr.induct` is the matching induction.
-/
import PolyAlgebra.TermSum.Basic

namespace PolyAlgebra

/-- An expression over numbers. -/
inductive Expr (α : Type) [Number α] where
  /-- A sum of terms. -/
  | sum (terms : List (Term α))
  /-- An operator with its two operands. -/
  | binary (op : Operator) (left right : Expr α)
  /-- An elementary function with its arguments. -/
  | call (f : Elementary) (arguments : List (Expr α))

namespace Expr

variable {α : Type} [Number α]

/-! ### Induction -/

/-- A property of every expression follows if it passes from the operands of an operator and
from all arguments of a call. -/
@[elab_as_elim]
theorem induct {motive : Expr α → Prop} (sum : ∀ terms, motive (.sum terms))
    (binary : ∀ op left right, motive left → motive right → motive (.binary op left right))
    (call : ∀ f arguments, (∀ e ∈ arguments, motive e) → motive (.call f arguments))
    (e : Expr α) : motive e :=
  @Expr.rec α _ motive (fun es => ∀ e ∈ es, motive e) sum binary call (fun _ h => nomatch h)
    (fun _ _ head tail e h => (List.mem_cons.mp h).elim (fun eq => eq ▸ head) (tail e)) e

/-! ### Building expressions -/

/-- A sum of terms in canonical form. -/
def ofTerms (terms : List (Term α)) : Expr α := .sum (TermSum.reduce terms)

/-- A term as an expression. -/
def ofTerm (t : Term α) : Expr α := ofTerms [t]

/-- A number as an expression. -/
def ofNumber (value : α) : Expr α := ofTerm (Term.ofNumber value)

/-- A variable as an expression. -/
def ofName (name : String) : Expr α := ofTerm (Term.ofName name)

/-- The sum that holds just the zero term. -/
def zero : Expr α := .sum [Term.zero]

/-- The number one. -/
def one : Expr α := ofNumber 1

/-- The opposite of an expression: of a sum term by term, of anything else as a product. -/
def negate : Expr α → Expr α
  | .sum terms => ofTerms (TermSum.negate terms)
  | .binary op left right => .binary .multiply (ofNumber (-1)) (.binary op left right)
  | .call f arguments => .binary .multiply (ofNumber (-1)) (.call f arguments)

/-- An operator applied to a list of operands, of which there must be two. -/
def ofOperands (op : Operator) : List (Expr α) → Except CountError (Expr α)
  | [left, right] => .ok (.binary op left right)
  | operands => .error (.operands op operands.length)

/-- A call with as many arguments as the function takes. -/
def ofCall (f : Elementary) (arguments : List (Expr α)) : Except CountError (Expr α) :=
  if arguments.length = f.arity then .ok (.call f arguments)
  else .error (.arguments f arguments.length)

/-! ### Asking about an expression -/

mutual

/-- The names an expression mentions, in the order they are read, with repetitions. -/
def mentions : Expr α → List String
  | .sum terms => terms.flatMap (fun t => t.powers.names)
  | .binary _ left right => mentions left ++ mentions right
  | .call _ arguments => mentionsAll arguments

/-- The names that some of the expressions mention. -/
def mentionsAll : List (Expr α) → List String
  | [] => []
  | e :: rest => mentions e ++ mentionsAll rest

end

theorem mentionsAll_eq_flatMap (es : List (Expr α)) : mentionsAll es = es.flatMap mentions := by
  induction es with
  | nil => rfl
  | cons e rest ih => simp [mentionsAll, ih]

/-- The variables of an expression in name order, each once. -/
def variableNames (e : Expr α) : List String :=
  (NameMap.ofList (e.mentions.map (fun name => (name, ())))).names

/-- How many variables an expression has. -/
def dimension (e : Expr α) : Nat := e.variableNames.length

/-- The terms of a sum. -/
def terms? : Expr α → Option (List (Term α))
  | .sum terms => some terms
  | .binary _ _ _ => none
  | .call _ _ => none

/-- The first term of a sum in canonical order. -/
def leadingTerm? (e : Expr α) : Option (Term α) := e.terms?.bind TermSum.leading?

/-- Whether the expression is a sum of terms that are all zero up to the tolerance. -/
def isZero : Expr α → Bool
  | .sum terms => TermSum.isZero terms
  | .binary _ _ _ => false
  | .call _ _ => false

mutual

/-- Every function in the expression has as many arguments as it takes. -/
def WellFormed : Expr α → Prop
  | .sum _ => True
  | .binary _ left right => WellFormed left ∧ WellFormed right
  | .call f arguments => arguments.length = f.arity ∧ AllWellFormed arguments

/-- All of the expressions are well formed. -/
def AllWellFormed : List (Expr α) → Prop
  | [] => True
  | e :: rest => WellFormed e ∧ AllWellFormed rest

end

theorem allWellFormed_iff (es : List (Expr α)) : AllWellFormed es ↔ ∀ e ∈ es, WellFormed e := by
  induction es with
  | nil => simp [AllWellFormed]
  | cons e rest ih => simp [AllWellFormed, ih]

end Expr

end PolyAlgebra
