/-
Terms: a coefficient times powers of variables.

Exponents are numbers like coefficients, so they may be negative, fractional or undefined.
A term is *normalised*: no exponent is zero and, if the coefficient is zero, there are no
powers at all.  The type carries the proof of that, so every operation below builds its result
with `normalise`.

Two notions of likeness matter.  `hasPowersOf` asks for exactly equal exponents and decides
which terms of a sum merge; an undefined exponent is not even like itself.  `approxEq`
compares coefficients and exponents up to the tolerance.
-/
import PolyAlgebra.NameMap
import PolyAlgebra.Number
import PolyAlgebra.EvalError

namespace PolyAlgebra

/-- No exponent is zero, and a zero coefficient stands alone. -/
structure Term.Normalised {α : Type} [Number α] (coefficient : α) (powers : NameMap α) : Prop where
  exponents : ∀ name exponent, powers.get? name = some exponent → (exponent == 0) = false
  bare : (coefficient == 0) = true → coefficient = 0 ∧ powers = NameMap.empty

/-- A coefficient times powers of variables. -/
@[ext]
structure Term (α : Type) [Number α] where
  /-- The number in front. -/
  coefficient : α
  /-- The exponent of each variable that the term mentions. -/
  powers : NameMap α
  normalised : Term.Normalised coefficient powers

/-- What cannot be done with a term. -/
inductive TermError (α : Type) [Number α] where
  /-- The term was to be divided by a term whose coefficient is zero. -/
  | zeroDivisor (dividend : Term α)
  /-- The antiderivative of a reciprocal is no term. -/
  | needsLogarithm (term : Term α) (name : String)

namespace Term

variable {α : Type} [Number α]

/-! ### Building terms -/

theorem normalised_zero : Normalised (0 : α) NameMap.empty :=
  ⟨fun name exponent h => by simp at h, fun _ => ⟨rfl, rfl⟩⟩

/-- The zero term, which mentions no variable. -/
def zero : Term α := ⟨0, NameMap.empty, normalised_zero⟩

theorem normalised_filter {coefficient : α} (h : ¬ (coefficient == 0) = true)
    (powers : NameMap α) :
    Normalised coefficient (powers.filter (fun _ exponent => exponent != 0)) := by
  refine ⟨fun name exponent hget => ?_, fun hzero => absurd hzero h⟩
  rw [NameMap.get?_filter] at hget
  obtain ⟨-, hne⟩ := Option.filter_eq_some_iff.mp hget
  simpa [bne] using hne

/-- A coefficient and powers as a term: a zero coefficient leaves nothing of the powers, and
a zero exponent nothing of its variable. -/
def normalise (coefficient : α) (powers : NameMap α) : Term α :=
  if h : coefficient == 0 then zero
  else ⟨coefficient, powers.filter (fun _ exponent => exponent != 0), normalised_filter h powers⟩

theorem normalise_of_isZero {coefficient : α} (h : (coefficient == 0) = true)
    (powers : NameMap α) : normalise coefficient powers = zero := dif_pos h

theorem normalise_of_ne {coefficient : α} (h : (coefficient == 0) = false)
    (powers : NameMap α) :
    normalise coefficient powers
      = ⟨coefficient, powers.filter (fun _ exponent => exponent != 0),
          normalised_filter (by simp [h]) powers⟩ :=
  dif_neg (by simp [h])

/-- A number that is not zero can stand before the powers of a term. -/
theorem Normalised.of_ne {coefficient other : α} {powers : NameMap α}
    (h : Normalised coefficient powers) (hne : (other == 0) = false) : Normalised other powers :=
  ⟨h.exponents, fun hzero => by simp [hne] at hzero⟩

/-- A term with the coefficient zero is the zero term. -/
theorem eq_zero_of_isZero {t : Term α} (h : (t.coefficient == 0) = true) : t = zero :=
  Term.ext (t.normalised.bare h).1 (t.normalised.bare h).2

/-- The term of a list of powers.  Pairs with exponent zero are left out first; of the
others with one name the last counts. -/
def ofPowers (coefficient : α) (pairs : List (String × α)) : Term α :=
  normalise coefficient (NameMap.ofList (pairs.filter (fun p => p.2 != 0)))

/-- A number as a term. -/
def ofNumber (value : α) : Term α := normalise value NameMap.empty

/-- A variable as a term. -/
def ofName (name : String) : Term α := ofPowers 1 [(name, 1)]

/-! ### Asking about a term -/

/-- The exponent of a variable, zero if the term does not mention it. -/
def exponent (t : Term α) (name : String) : α := (t.powers.get? name).getD 0

/-- How many variables the term mentions. -/
def dimension (t : Term α) : Nat := t.powers.size

/-- Whether the coefficient is zero. -/
def isZero (t : Term α) : Bool := t.coefficient == 0

/-- Whether the term mentions no variable. -/
def isConstant (t : Term α) : Bool := t.powers.isEmpty

/-- The largest exponent, zero for a constant. -/
def degree (t : Term α) : α :=
  if t.isConstant then 0 else Number.largest t.powers.values

/-- Whether two terms raise the same variables to equal exponents. -/
def hasPowersOf (t other : Term α) : Bool := t.powers.agrees (· == ·) other.powers

/-- Whether two terms are equal up to the tolerance: the same variables, near coefficients
and near exponents. -/
def approxEq (t other : Term α) : Bool :=
  Number.isNear t.coefficient other.coefficient &&
    t.powers.entries.all (fun e =>
      match other.powers.get? e.1 with
      | some theirs => Number.isNear theirs e.2
      | none => false) &&
    other.powers.names.all t.powers.contains

/-! ### Arithmetic -/

/-- The term with another coefficient. -/
def withCoefficient (t : Term α) (coefficient : α) : Term α := normalise coefficient t.powers

/-- The sum of two terms with the same powers. -/
def add? (t other : Term α) : Option (Term α) :=
  if t.hasPowersOf other then some (t.withCoefficient (t.coefficient + other.coefficient))
  else none

/-- The difference of two terms with the same powers. -/
def subtract? (t other : Term α) : Option (Term α) :=
  if t.hasPowersOf other then some (t.withCoefficient (t.coefficient - other.coefficient))
  else none

/-- The product; exponents of a variable add up. -/
def multiply (t other : Term α) : Term α :=
  normalise (t.coefficient * other.coefficient)
    (t.powers.overlay (fun ours theirs => ours.getD 0 + theirs) other.powers)

/-- The quotient; a divisor with the coefficient zero is refused. -/
def divide (t divisor : Term α) : Except (TermError α) (Term α) :=
  if divisor.isZero then .error (.zeroDivisor t)
  else .ok (normalise (t.coefficient / divisor.coefficient)
    (t.powers.overlay (fun ours theirs => ours.getD 0 - theirs) divisor.powers))

/-- The term times a number. -/
def scale (t : Term α) (factor : α) : Term α := t.withCoefficient (t.coefficient * factor)

/-- The term with the opposite sign. -/
def negate (t : Term α) : Term α := t.scale (-1)

/-- The reciprocal. -/
def invert (t : Term α) : Term α :=
  normalise (1 / t.coefficient) (t.powers.map (fun exponent => -exponent))

/-- The term raised to a number. -/
def exponentiate (t : Term α) (power : α) : Term α :=
  normalise (Number.pow t.coefficient power) (t.powers.map (fun exponent => exponent * power))

/-! ### Values -/

/-- The value of the term; of several unbound variables the first in name order counts. -/
def value (t : Term α) (bindings : Bindings α) : Except EvalError α :=
  t.powers.entries.foldlM (multiplyPower bindings) t.coefficient
where
  /-- Multiply by the power of one variable. -/
  multiplyPower (bindings : Bindings α) (product : α) (e : String × α) : Except EvalError α :=
    match bindings e.1 with
    | some x => .ok (product * Number.pow x e.2)
    | none => .error (.unbound e.1)

/-- The term with the bound variables replaced by their values. -/
def partiallyEvaluate (t : Term α) (bindings : Bindings α) : Term α :=
  normalise (t.powers.entries.foldl (absorbPower bindings) t.coefficient)
    (t.powers.filter (fun name _ => (bindings name).isNone))
where
  /-- Multiply by the power of a variable if it is bound. -/
  absorbPower (bindings : Bindings α) (product : α) (e : String × α) : α :=
    match bindings e.1 with
    | some x => product * Number.pow x e.2
    | none => product

/-! ### Derivatives -/

/-- The derivative with respect to a variable. -/
def differentiate (t : Term α) (name : String) : Term α :=
  match t.powers.get? name with
  | some exponent =>
    if t.degree == 0 then zero
    else normalise (t.coefficient * exponent) (t.powers.insert name (exponent - 1))
  | none => zero

/-- The antiderivative with respect to a variable, without a constant of integration.  The
exponent -1 is refused. -/
def integrate (t : Term α) (name : String) : Except (TermError α) (Term α) :=
  if t.exponent name == -1 then .error (.needsLogarithm t name)
  else
    let raised := t.exponent name + 1
    .ok (normalise (t.coefficient / raised) (t.powers.insert name raised))

end Term

end PolyAlgebra
