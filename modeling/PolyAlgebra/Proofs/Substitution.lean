/-
Substituting is evaluating in steps.

Bindings can be used one after the other: those that come first decide, and the later ones are
asked for what is left (`followedBy`).  Replacing the first variables in a term multiplies their
powers into its coefficient, so what is left has, under the later bindings, the value that the
term has under both (`Term.valueAt_partiallyEvaluate`).

That terms become alike, cancel, or turn into zero and drop their other variables does not
matter, because values are those of polynomials (`TermSum.value_eq`) and canonical form keeps
the polynomial.  Nor does the node that a sum stands in, since values pass through nodes.
-/
import Mathlib
import PolyAlgebra.Proofs.Leaves
import PolyAlgebra.Proofs.Values

namespace PolyAlgebra

/-! ### Bindings in sequence -/

namespace Bindings

variable {α : Type}

/-- The first bindings, and the later ones for the variables that those leave open. -/
def followedBy (first later : Bindings α) : Bindings α :=
  fun name => (first name).or (later name)

/-- One variable is bound, and no other. -/
def only (name : String) (value : α) : Bindings α :=
  fun other => if other == name then some value else none

@[simp] theorem only_self (name : String) (value : α) : only name value name = some value := by
  simp [only]

theorem followedBy_of_some {first : Bindings α} (later : Bindings α) {name : String} {x : α}
    (h : first name = some x) : first.followedBy later name = some x := by
  rw [followedBy, h, Option.some_or]

theorem followedBy_of_none {first : Bindings α} (later : Bindings α) {name : String}
    (h : first name = none) : first.followedBy later name = later name := by
  rw [followedBy, h, Option.none_or]

theorem followedBy_assoc (first second third : Bindings α) :
    (first.followedBy second).followedBy third = first.followedBy (second.followedBy third) :=
  funext fun _ => Option.or_assoc

end Bindings

/-! ### Bound variables -/

section Bound

variable {α : Type} [Number α] {first later : Bindings α}

/-- What is left of a term mentions only variables that the later bindings have to bind. -/
theorem Term.Bound.partiallyEvaluate {t : Term α} (h : t.Bound (first.followedBy later)) :
    (t.partiallyEvaluate first).Bound later := by
  refine Term.Bound.normalise _ fun name exponent hget => ?_
  rw [NameMap.get?_filter] at hget
  obtain ⟨hget, hopen⟩ := Option.filter_eq_some_iff.mp hget
  obtain ⟨x, hx⟩ := h name exponent hget
  rw [Bindings.followedBy_of_none later (Option.isNone_iff_eq_none.mp hopen)] at hx
  exact ⟨x, hx⟩

theorem Expr.substitute_bound {e : Expr α}
    (h : ∀ t ∈ e.leafTerms, t.Bound (first.followedBy later)) :
    ∀ t ∈ (e.substitute first).leafTerms, t.Bound later := by
  induction e using Expr.induct with
  | sum terms =>
    refine TermSum.reduce_bound fun u hu => ?_
    obtain ⟨t, ht, rfl⟩ := List.mem_map.mp hu
    exact (h t ht).partiallyEvaluate
  | binary op left right ihl ihr =>
    obtain ⟨hl, hr⟩ := forall_leafTerms_binary.mp h
    exact forall_leafTerms_binary.mpr ⟨ihl hl, ihr hr⟩
  | call f arguments ih =>
    have hall := forall_leafTerms_call.mp h
    rw [substitute, substituteAll_eq_map]
    refine forall_leafTerms_call.mpr fun e' he' => ?_
    obtain ⟨e, he, rfl⟩ := List.mem_map.mp he'
    exact ih e he (hall e he)

end Bound

/-! ### Values -/

variable {K : Type} [Field K] [LinearOrder K] [FloorRing K] [Unsettled K]
  [IsStrictOrderedRing K] {first later : Bindings K}

omit [IsStrictOrderedRing K] in
/-- The powers that go into the coefficient and those that are left make up all of them. -/
theorem Term.absorbed_mul_open (entries : List (String × K)) (c : K) :
    entries.foldl (partiallyEvaluate.absorbPower first) c
        * ((entries.filter fun e => (first e.1).isNone).map
            fun e => Number.pow (later.number e.1) e.2).prod
      = c * (entries.map
          fun e => Number.pow ((first.followedBy later).number e.1) e.2).prod := by
  induction entries generalizing c with
  | nil => rfl
  | cons e rest ih =>
    rw [List.foldl_cons, List.map_cons, List.prod_cons, partiallyEvaluate.absorbPower]
    cases hfirst : first e.1 with
    | some x =>
      have hnumber : (first.followedBy later).number e.1 = x := by
        rw [Bindings.number, Bindings.followedBy_of_some later hfirst, Option.getD_some]
      rw [List.filter_cons_of_neg (by simp [hfirst]), ih, hnumber, mul_assoc]
    | none =>
      have hnumber : (first.followedBy later).number e.1 = later.number e.1 := by
        rw [Bindings.number, Bindings.followedBy_of_none later hfirst, Bindings.number]
      rw [List.filter_cons_of_pos (by simp [hfirst]), List.map_cons, List.prod_cons, hnumber,
        mul_left_comm, ih, mul_left_comm]

/-- **What is left of a term has the value of the term.** -/
theorem Term.valueAt_partiallyEvaluate (t : Term K) :
    Laurent.valueAt later (t.partiallyEvaluate first).polynomial
      = Laurent.valueAt (first.followedBy later) t.polynomial := by
  rw [partiallyEvaluate, polynomial_normalise, Laurent.valueAt_single, monomialValue_toFinsupp,
    polynomial, Laurent.valueAt_single, monomial, monomialValue_toFinsupp]
  exact absorbed_mul_open t.powers.entries t.coefficient

theorem TermSum.valueAt_partiallyEvaluate (terms : TermSum K) :
    Laurent.valueAt later (polynomial (terms.map fun t => t.partiallyEvaluate first))
      = Laurent.valueAt (first.followedBy later) (polynomial terms) := by
  induction terms with
  | nil => rw [List.map_nil, polynomial_nil, map_zero, map_zero]
  | cons t rest ih =>
    rw [List.map_cons, polynomial_cons, polynomial_cons, map_add, map_add,
      Term.valueAt_partiallyEvaluate, ih]

namespace Expr

theorem substitute_value_of_bound {e : Expr K}
    (h : ∀ t ∈ e.leafTerms, t.Bound (first.followedBy later)) :
    (e.substitute first).value later = e.value (first.followedBy later) := by
  induction e using Expr.induct with
  | sum terms =>
    have hterms : ∀ t ∈ terms, t.Bound (first.followedBy later) := h
    have hleft : ∀ u ∈ terms.map (fun t => t.partiallyEvaluate first), u.Bound later := by
      intro u hu
      obtain ⟨t, ht, rfl⟩ := List.mem_map.mp hu
      exact (hterms t ht).partiallyEvaluate
    rw [substitute, ofTerms_value hleft, TermSum.valueAt_partiallyEvaluate, value,
      TermSum.value_eq hterms]
  | binary op left right ihl ihr =>
    obtain ⟨hl, hr⟩ := forall_leafTerms_binary.mp h
    rw [substitute, value, value, ihl hl, ihr hr]
  | call f arguments ih =>
    have hall := forall_leafTerms_call.mp h
    rw [substitute, substituteAll_eq_map, value, value,
      values_congr fun e he => ih e he (hall e he)]

/-- **Substituting and then evaluating is evaluating.**  Where the first bindings and, for what
they leave open, the later ones bind every variable, an expression with the first substituted
has under the later ones the value, or the division by zero, that it has under both.  So it
does not matter in how many steps variables are replaced.  A zero may have a negative exponent:
whatever its power is, both sides multiply by it. -/
theorem substitute_value {e : Expr K} {s t : Bindings K}
    (hbound : ∀ name ∈ e.variableNames, ∃ x, s.followedBy t name = some x) :
    (e.substitute s).value t = e.value (s.followedBy t) ∧
      ∀ s₁ s₂, s₁.followedBy s₂ = s →
        ((e.substitute s₁).substitute s₂).value t = (e.substitute s).value t := by
  have hleaves : ∀ u ∈ e.leafTerms, u.Bound (s.followedBy t) := bound_of_variableNames hbound
  have honce := substitute_value_of_bound hleaves
  refine ⟨honce, ?_⟩
  rintro s₁ s₂ rfl
  rw [Bindings.followedBy_assoc] at hleaves
  rw [substitute_value_of_bound (substitute_bound hleaves), substitute_value_of_bound hleaves,
    honce, Bindings.followedBy_assoc]

/-- Terms become alike and cancel in the dividend, and the divisor becomes zero. -/
theorem substitute_value_cancelling :
    let dividend : Expr ℚ := .sum [Term.ofPowers 1 [("x", 1), ("y", 1)],
      Term.ofPowers (-2) [("y", 1)], Term.ofPowers 3 [("z", -1)]]
    let divisor : Expr ℚ := .sum [Term.ofName "x", Term.ofPowers (-1) [("z", 1)]]
    let e : Expr ℚ := .binary .divide dividend divisor
    let s : Bindings ℚ := Bindings.only "x" 2
    let t : Bindings ℚ := (Bindings.only "y" 5).followedBy (Bindings.only "z" 2)
    ((∀ name ∈ e.variableNames, ∃ x, s.followedBy t name = some x) ∧ IsStrictOrderedRing ℚ) ∧
      (e.substitute s).value t = e.value (s.followedBy t) ∧
      ∀ s₁ s₂, s₁.followedBy s₂ = s →
        ((e.substitute s₁).substitute s₂).value t = (e.substitute s).value t := by
  intro dividend divisor e s t
  have hbound : ∀ name ∈ e.variableNames, ∃ x, s.followedBy t name = some x := by
    have hnames : e.variableNames = ["x", "y", "z"] := by decide +kernel
    rw [hnames]
    simp [s, t, Bindings.followedBy, Bindings.only]
  exact ⟨⟨hbound, inferInstance⟩, substitute_value hbound⟩

end Expr

end PolyAlgebra
