/-
Every operation gives canonical sums.

The sums that an expression holds may be raw: unsorted, with like terms side by side, with
zeros among them.  Whatever an operation makes of such an expression, the sums in the result
are canonical (`results_canonicalForm`).  This does not depend on the arithmetic, which may
round or overflow; only the order of the terms can be lost, and only where a number in the sum
is undefined.

Every term is normalised by its type, and all operations build their sums by `reduce`.  So one
fact about `reduce` carries the module, and the rest is that no operation builds a sum in another
way.
-/
import Mathlib
import PolyAlgebra.Calculus
import PolyAlgebra.Interpolation
import PolyAlgebra.Proofs.Collapsing
import PolyAlgebra.Proofs.Canonical
import PolyAlgebra.Proofs.Double.Order
import PolyAlgebra.Proofs.Leaves
import PolyAlgebra.Proofs.Preservation
import PolyAlgebra.Proofs.TermOrder

namespace PolyAlgebra

variable {α : Type} [Number α]

/-! ### Sums -/

namespace TermSum

/-- A canonical sum whose terms stand in canonical order, unless some number in it is undefined. -/
structure CanonicalForm (terms : TermSum α) : Prop extends Canonical terms where
  inOrder : (∀ t ∈ terms, t.Defined) → InOrder Term.canonicalOrder terms

/-- **What relates a remainder to the quotient found for it**, if nothing has to be found where
division stops, and dividing the first term carries the relation back over a step. -/
theorem quotientTerms_induction {divisor : TermSum α} {leading : Term α}
    {I : TermSum α → TermSum α → Prop} (stop : ∀ remainder, I remainder [])
    (step : ∀ first rest factor quotient, first.divide leading = .ok factor →
      I (subtractMultiple (first :: rest) divisor factor) quotient →
      I (first :: rest) (factor :: quotient)) {steps : Nat} {remainder quotient : TermSum α}
    (h : quotientTerms divisor leading steps remainder = .ok quotient) : I remainder quotient := by
  induction steps generalizing remainder quotient with
  | zero =>
    rw [quotientTerms] at h
    split at h
    · cases h
    · split at h
      · obtain rfl := Except.ok.inj h
        exact stop _
      · cases h
  | succ steps ih =>
    rw [quotientTerms.eq_def] at h
    split at h
    · cases remainder with
      | nil =>
        obtain rfl := Except.ok.inj h
        exact stop _
      | cons first rest =>
        dsimp only at h
        cases hfactor : first.divide leading with
        | error error =>
          rw [hfactor] at h
          cases h
        | ok factor =>
          rw [hfactor] at h
          obtain ⟨later, hlater, rfl⟩ := map_eq_ok_iff.mp h
          exact step first rest factor later hfactor (ih hlater)
    · split at h
      · obtain rfl := Except.ok.inj h
        exact stop _
      · cases h

/-- A quotient is zero or the canonical form of the terms found. -/
theorem divide_eq_ok_cases {dividend divisor quotient : TermSum α}
    (h : divide dividend divisor = .ok quotient) :
    quotient = [Term.zero] ∨ ∃ leading ∈ reduce divisor, ∃ terms,
      quotientTerms (reduce divisor) leading divisionSteps (reduce dividend) = .ok terms ∧
      quotient = reduce terms := by
  rw [divide] at h
  split at h
  · cases h
  · rename_i leading rest hfirst
    split at h
    · cases h
    · split at h
      · exact Or.inl (Except.ok.inj h).symm
      · split at h
        · cases h
        · obtain ⟨terms, hterms, rfl⟩ := map_eq_ok_iff.mp h
          exact Or.inr ⟨leading, by rw [hfirst]; exact List.mem_cons_self, terms, hterms, rfl⟩

/-- The sum is the canonical form of some sum. -/
def IsReduct (terms : TermSum α) : Prop := ∃ raw : TermSum α, reduce raw = terms

theorem isReduct_zero : IsReduct [(Term.zero : Term α)] := ⟨[], rfl⟩

theorem isReduct_ofNumber (x : α) : IsReduct (ofNumber x) := ⟨_, rfl⟩

theorem isReduct_divide {dividend divisor quotient : TermSum α}
    (h : divide dividend divisor = .ok quotient) : IsReduct quotient := by
  rcases divide_eq_ok_cases h with rfl | ⟨leading, -, terms, hterms, rfl⟩
  · exact isReduct_zero
  · exact ⟨terms, rfl⟩

/-- Whichever operator combines two sums, the result is a canonical form. -/
theorem isReduct_combine {op : Operator} {left right terms : TermSum α}
    (h : combine op left right = .ok terms) : IsReduct terms := by
  cases op with
  | add => exact ⟨_, Except.ok.inj h⟩
  | subtract => exact ⟨_, Except.ok.inj h⟩
  | multiply => exact ⟨_, Except.ok.inj h⟩
  | divide => exact isReduct_divide h
  | power => cases h

variable [OrderedNumber α]

/-- **The canonical form of a sum is canonical.** -/
theorem canonicalForm_reduce (terms : TermSum α) : CanonicalForm (reduce terms) :=
  ⟨reduce_canonical terms, reduce_inOrder⟩

theorem IsReduct.canonicalForm {terms : TermSum α} (h : IsReduct terms) : CanonicalForm terms := by
  obtain ⟨raw, rfl⟩ := h
  exact canonicalForm_reduce raw

end TermSum

/-! ### Expressions -/

namespace Expr

/-- Every sum in the expression is canonical. -/
def HasCanonicalForm (e : Expr α) : Prop := ∀ terms ∈ e.leafSums, TermSum.CanonicalForm terms

theorem hasCanonicalForm_sum_iff {terms : TermSum α} :
    (Expr.sum terms).HasCanonicalForm ↔ TermSum.CanonicalForm terms := by
  rw [HasCanonicalForm, leafSums, List.forall_mem_singleton]

theorem hasCanonicalForm_binary_iff {op : Operator} {left right : Expr α} :
    (Expr.binary op left right).HasCanonicalForm ↔
      left.HasCanonicalForm ∧ right.HasCanonicalForm := by
  rw [HasCanonicalForm, leafSums, List.forall_mem_append]
  rfl

theorem hasCanonicalForm_call_iff {f : Elementary} {arguments : List (Expr α)} :
    (Expr.call f arguments).HasCanonicalForm ↔ ∀ e ∈ arguments, e.HasCanonicalForm := by
  rw [HasCanonicalForm, leafSums, leafSumsAll_eq_flatMap]
  simp only [HasCanonicalForm, List.mem_flatMap, forall_exists_index, and_imp]
  exact ⟨fun h e he terms hterms => h terms e he hterms,
    fun h terms e he hterms => h e he terms hterms⟩

/-! ### Simplifying -/

/-- What an expression collapses into is a canonical form. -/
theorem collapse_isReduct {e : Expr α} {terms : TermSum α} (h : e.collapse = .ok terms) :
    TermSum.IsReduct terms := by
  cases e with
  | sum raw => exact ⟨raw, Except.ok.inj h⟩
  | binary op left right =>
    obtain ⟨-, l, r, -, -, hcombine⟩ := collapse_binary_eq_ok_iff.mp h
    exact TermSum.isReduct_combine hcombine
  | call f arguments =>
    obtain ⟨numbers, x, -, -, rfl⟩ := collapse_call_eq_ok_iff.mp h
    exact TermSum.isReduct_ofNumber x

variable [OrderedNumber α]

/-- **An expression collapses into a canonical sum, if it does.** -/
theorem collapse_canonicalForm {e : Expr α} {terms : TermSum α} (h : e.collapse = .ok terms) :
    TermSum.CanonicalForm terms :=
  (collapse_isReduct h).canonicalForm

/-- Results have canonical sums, and nothing has to be assumed for it. -/
theorem establishes_hasCanonicalForm : Establishes (fun _ : Expr α => True) HasCanonicalForm where
  weaken _ := trivial
  operands := by simp
  binary hl hr := hasCanonicalForm_binary_iff.mpr ⟨hl, hr⟩
  call_map _ hmap := by
    rw [hasCanonicalForm_call_iff, List.forall_mem_map]
    exact fun e he => hmap e he trivial
  collapse _ hterms := hasCanonicalForm_sum_iff.mpr (collapse_canonicalForm hterms)
  zero := hasCanonicalForm_sum_iff.mpr TermSum.isReduct_zero.canonicalForm

theorem trySimplify_hasCanonicalForm {e r : Expr α} (h : e.trySimplify = some r) :
    r.HasCanonicalForm :=
  establishes_hasCanonicalForm.trySimplify trivial h

theorem simplify_hasCanonicalForm (e : Expr α) : e.simplify.HasCanonicalForm :=
  establishes_hasCanonicalForm.simplify trivial

/-! ### Derivatives and antiderivatives -/

theorem differentiate_hasCanonicalForm {e d : Expr α} {name : String}
    (h : e.differentiate name = .ok d) : d.HasCanonicalForm :=
  establishes_hasCanonicalForm.differentiate
    (fun _ _ => hasCanonicalForm_sum_iff.mpr (TermSum.canonicalForm_reduce _)) trivial h

theorem integrateTerms_hasCanonicalForm {terms : TermSum α} {name : String} {F : Expr α}
    (h : integrateTerms terms name = .ok F) : F.HasCanonicalForm := by
  rw [integrateTerms] at h
  split at h
  · rename_i integrals hintegrals
    obtain rfl := Except.ok.inj h
    exact hasCanonicalForm_sum_iff.mpr (TermSum.canonicalForm_reduce integrals)
  · cases h

theorem integrate_hasCanonicalForm {e F : Expr α} {name : String}
    (h : e.integrate name = .ok F) : F.HasCanonicalForm := by
  induction e using Expr.induct generalizing F with
  | sum terms => exact integrateTerms_hasCanonicalForm h
  | binary op left right ihl ihr =>
    cases op with
    | add =>
      obtain ⟨l, hl, h⟩ := bind_eq_ok_iff.mp h
      obtain ⟨r, hr, h⟩ := bind_eq_ok_iff.mp h
      obtain rfl := Except.ok.inj h
      exact establishes_hasCanonicalForm.simplify_binary .add trivial trivial
    | subtract =>
      obtain ⟨l, hl, h⟩ := bind_eq_ok_iff.mp h
      obtain ⟨r, hr, h⟩ := bind_eq_ok_iff.mp h
      obtain rfl := Except.ok.inj h
      exact establishes_hasCanonicalForm.simplify_binary .subtract trivial trivial
    | multiply =>
      rw [integrate] at h
      split at h
      · exact integrateTerms_hasCanonicalForm h
      · cases h
    | divide => cases h
    | power => cases h
  | call f arguments _ => cases h

/-! ### Substituting and interpolating -/

theorem substitute_hasCanonicalForm (e : Expr α) (b : Bindings α) :
    (e.substitute b).HasCanonicalForm := by
  induction e using Expr.induct with
  | sum terms => exact hasCanonicalForm_sum_iff.mpr (TermSum.canonicalForm_reduce _)
  | binary op left right ihl ihr => exact hasCanonicalForm_binary_iff.mpr ⟨ihl, ihr⟩
  | call f arguments ih =>
    rw [substitute, substituteAll_eq_map, hasCanonicalForm_call_iff, List.forall_mem_map]
    exact ih

theorem integrateOver_hasCanonicalForm {e r : Expr α} {name : String} {start stop : α}
    (h : e.integrateOver name start stop = .ok r) : r.HasCanonicalForm := by
  obtain ⟨F, -, h⟩ := bind_eq_ok_iff.mp h
  obtain rfl := Except.ok.inj h
  exact establishes_hasCanonicalForm.simplify_binary .subtract trivial trivial

theorem interpolate_hasCanonicalForm {name : String} {inputs outputs : List α} {p : Expr α}
    (h : interpolate name inputs outputs = .ok p) : p.HasCanonicalForm := by
  rw [interpolate] at h
  dsimp only at h
  split at h
  · cases h
  · split at h
    · cases h
    · split at h
      · obtain rfl := Except.ok.inj h
        exact hasCanonicalForm_sum_iff.mpr (TermSum.canonicalForm_reduce _)
      · cases h

/-! ### All operations -/

/-- Whatever is made of the expression, the sums in the result are canonical. -/
structure GivesCanonicalForms (e : Expr α) : Prop where
  simplify : e.simplify.HasCanonicalForm
  trySimplify : ∀ r, e.trySimplify = some r → r.HasCanonicalForm
  differentiate : ∀ name d, e.differentiate name = .ok d → d.HasCanonicalForm
  integrate : ∀ name F, e.integrate name = .ok F → F.HasCanonicalForm
  integrateOver : ∀ name start stop r, e.integrateOver name start stop = .ok r →
    r.HasCanonicalForm
  substitute : ∀ b, (e.substitute b).HasCanonicalForm

/-- **Every operation gives canonical sums**, whether the sums it is given are canonical or not,
and so does interpolation.  In each of them the terms, which are normalised by their type, have
different powers, are not zero save for the one zero term of the zero sum, and stand in canonical
order unless a number in the sum is undefined. -/
theorem results_canonicalForm (e : Expr α) :
    e.GivesCanonicalForms ∧ ∀ (name : String) (inputs outputs : List α) (p : Expr α),
      interpolate name inputs outputs = .ok p → p.HasCanonicalForm := by
  refine ⟨⟨simplify_hasCanonicalForm e, ?_, ?_, ?_, ?_, substitute_hasCanonicalForm e⟩, ?_⟩
  · exact fun r h => trySimplify_hasCanonicalForm h
  · exact fun name d h => differentiate_hasCanonicalForm h
  · exact fun name F h => integrate_hasCanonicalForm h
  · exact fun name start stop r h => integrateOver_hasCanonicalForm h
  · exact fun name inputs outputs p h => interpolate_hasCanonicalForm h

/-- Doubles, in a quotient of raw sums that have like terms and zeros in them. -/
theorem results_canonicalForm_raw :
    let raw : Expr Float := .sum [Term.ofNumber 2, Term.ofName "x", Term.zero, Term.ofName "x"]
    let e : Expr Float := .binary .divide raw (.binary .multiply raw (.sum []))
    OrderedNumber Float ∧
      e.GivesCanonicalForms ∧ ∀ (name : String) (inputs outputs : List Float) (p : Expr Float),
        interpolate name inputs outputs = .ok p → p.HasCanonicalForm := by
  intro raw e
  exact ⟨inferInstance, results_canonicalForm e⟩

end Expr

end PolyAlgebra
