/-
Integrals between bounds.

At a bound the variable becomes a number, and what is left of the antiderivative is a sum in the
other variables (`TermSum.leftAt`).  Terms that differed in powers of the variable only become
alike there and may cancel, but the polynomial that the sum stands for does not see that.  The
integral is a canonical sum for the difference of two such polynomials
(`integrateOver_polynomial`).

That is all the rest needs.  Values subtract because evaluating a polynomial is additive, and
the polynomials of neighbouring intervals add up to that of both together.  The latter is a
statement about terms and not only about values, because a canonical sum is determined by its
polynomial, up to the order of terms that tie.
-/
import Mathlib
import PolyAlgebra.Proofs.Integration
import PolyAlgebra.Proofs.Substitution
import PolyAlgebra.Proofs.Variables

namespace PolyAlgebra

variable {K : Type} [Field K] [LinearOrder K] [FloorRing K] [Unsettled K] {name : String}

/-! ### Sums at a bound -/

namespace TermSum

/-- What is left of a sum where a variable is a number. -/
def leftAt (terms : TermSum K) (name : String) (x : K) : TermSum K :=
  terms.map fun t => t.partiallyEvaluate (Bindings.only name x)

theorem valueAt_leftAt [IsStrictOrderedRing K] (terms : TermSum K) (x : K)
    (lookup : Bindings K) :
    Laurent.valueAt lookup (polynomial (leftAt terms name x))
      = Laurent.valueAt ((Bindings.only name x).followedBy lookup) (polynomial terms) :=
  valueAt_partiallyEvaluate terms

end TermSum

namespace Expr

/-! ### The integral as a sum -/

/-- **An integral is a canonical sum for the difference of the antiderivative at the bounds.** -/
theorem integrateOver_polynomial {e : Expr K} {integrals : TermSum K}
    (hF : e.integrate name = .ok (.sum integrals)) (start stop : K) :
    ∃ terms, e.integrateOver name start stop = .ok (.sum terms) ∧
      TermSum.CanonicalForm terms ∧
      TermSum.polynomial terms = TermSum.polynomial (integrals.leftAt name stop)
        - TermSum.polynomial (integrals.leftAt name start) := by
  obtain ⟨terms, hterms, -, hp⟩ := simplify_of_isRingTree (.subtract
    (.sum (TermSum.reduce (integrals.leftAt name stop)))
    (.sum (TermSum.reduce (integrals.leftAt name start))))
  have hr : e.integrateOver name start stop = .ok (.sum terms) := by
    rw [← hterms, integrateOver, hF]
    rfl
  refine ⟨terms, hr, hasCanonicalForm_sum_iff.mp (integrateOver_hasCanonicalForm hr), ?_⟩
  rw [hp, polynomial, polynomial, polynomial, TermSum.polynomial_reduce, TermSum.polynomial_reduce]

/-- An integral has no variables but the others. -/
theorem variableNames_integrateOver {e r : Expr K} {start stop : K}
    (hr : e.integrateOver name start stop = .ok r) :
    ∀ other ∈ r.variableNames, other ∈ e.variableNames ∧ other ≠ name :=
  within_iff.mp (integrateOver_within (within_variableNames e) hr)

/-- Where the other variables are bound, a number for the variable binds the antiderivative. -/
theorem bound_antiderivative {e F : Expr K} (hF : e.integrate name = .ok F) (x : K)
    {lookup : Bindings K}
    (hbound : ∀ other ∈ e.variableNames, other ≠ name → ∃ y, lookup other = some y) :
    ∀ t ∈ F.leafTerms, t.Bound ((Bindings.only name x).followedBy lookup) := by
  have hwithin := integrate_within_insert (within_variableNames e) hF
  refine bound_of_variableNames fun other hother => ?_
  by_cases hname : other = name
  · subst hname
    exact ⟨x, Bindings.followedBy_of_some lookup (Bindings.only_self _ x)⟩
  · rw [Bindings.followedBy_of_none lookup (only_eq_none_iff.mpr hname)]
    exact hbound other ((within_iff.mp hwithin other hother).resolve_left hname) hname

variable [IsStrictOrderedRing K]

/-- The value of an integral is the difference of the values at the bounds. -/
theorem value_of_difference {e : Expr K} {integrals terms : TermSum K} {start stop : K}
    (hF : e.integrate name = .ok (.sum integrals))
    (hr : e.integrateOver name start stop = .ok (.sum terms))
    (hp : TermSum.polynomial terms = TermSum.polynomial (integrals.leftAt name stop)
      - TermSum.polynomial (integrals.leftAt name start))
    {lookup : Bindings K}
    (hbound : ∀ other ∈ e.variableNames, other ≠ name → ∃ y, lookup other = some y) :
    ∃ upper lower,
      (Expr.sum integrals).value ((Bindings.only name stop).followedBy lookup) = .ok upper ∧
      (Expr.sum integrals).value ((Bindings.only name start).followedBy lookup) = .ok lower ∧
      (Expr.sum terms).value lookup = .ok (upper - lower) := by
  have hterms : ∀ t ∈ terms, t.Bound lookup :=
    bound_of_variableNames (e := .sum terms) fun other hother =>
      have ⟨hmem, hne⟩ := variableNames_integrateOver hr other hother
      hbound other hmem hne
  refine ⟨_, _, TermSum.value_eq (bound_antiderivative hF stop hbound),
    TermSum.value_eq (bound_antiderivative hF start hbound), ?_⟩
  rw [value, TermSum.value_eq hterms, hp, map_sub, TermSum.valueAt_leftAt,
    TermSum.valueAt_leftAt]

/-- **A definite integral is the difference of the antiderivative at its bounds.**  Whatever has
an antiderivative has an integral between any two bounds, which is a canonical sum without the
variable, and wherever the other variables are bound its value is the value of the antiderivative
at the upper bound less the one at the lower.  So the integrals over neighbouring intervals
simplify to the terms of the integral over both, and over an empty interval the integral is zero.
A bound may be zero where the antiderivative has a negative exponent: whatever the power of zero
is, both sides multiply by it. -/
theorem integrateOver_difference {e F : Expr K} (hF : e.integrate name = .ok F) :
    (∀ a b, ∃ r, e.integrateOver name a b = .ok (.sum r) ∧ TermSum.CanonicalForm r ∧
      name ∉ (Expr.sum r).variableNames ∧
      ∀ lookup : Bindings K,
        (∀ other ∈ e.variableNames, other ≠ name → ∃ y, lookup other = some y) →
        ∃ upper lower, F.value ((Bindings.only name b).followedBy lookup) = .ok upper ∧
          F.value ((Bindings.only name a).followedBy lookup) = .ok lower ∧
          (Expr.sum r).value lookup = .ok (upper - lower)) ∧
    (∀ a b c first second whole, e.integrateOver name a b = .ok first →
      e.integrateOver name b c = .ok second → e.integrateOver name a c = .ok whole →
      ∃ total terms, simplify (.binary .add first second) = .sum total ∧ whole = .sum terms ∧
        total.Perm terms) ∧
    ∀ a, e.integrateOver name a a = .ok zero := by
  obtain ⟨-, integrals, -, rfl, -⟩ := integrate_sound hF
  refine ⟨fun a b => ?_, fun a b c first second whole hab hbc hac => ?_, fun a => ?_⟩
  · obtain ⟨terms, hr, hcanonical, hp⟩ := integrateOver_polynomial hF a b
    refine ⟨terms, hr, hcanonical, fun hname => ?_, fun lookup hbound =>
      value_of_difference hF hr hp hbound⟩
    exact (variableNames_integrateOver hr name hname).2 rfl
  · obtain ⟨first', hfirst, hfirst', hpab⟩ := integrateOver_polynomial hF a b
    obtain ⟨second', hsecond, hsecond', hpbc⟩ := integrateOver_polynomial hF b c
    obtain ⟨terms, hwhole, hwhole', hpac⟩ := integrateOver_polynomial hF a c
    obtain rfl := Except.ok.inj (hfirst.symm.trans hab)
    obtain rfl := Except.ok.inj (hsecond.symm.trans hbc)
    obtain rfl := Except.ok.inj (hwhole.symm.trans hac)
    obtain ⟨total, htotal, hcanonical, hp⟩ := simplify_of_isRingTree
      (.add (.sum first') (.sum second'))
    refine ⟨total, terms, htotal, rfl,
      hcanonical.perm_of_polynomial_eq hwhole'.toCanonical ?_⟩
    rw [hp, polynomial, polynomial, polynomial, hpab, hpbc, hpac]
    abel
  · obtain ⟨terms, hr, hcanonical, hp⟩ := integrateOver_polynomial hF a a
    rw [hr, hcanonical.toCanonical.eq_zero (hp.trans (sub_self _))]
    rfl

/-- In three variables and with negative exponents.  At a bound two terms become alike, and
between opposite bounds they cancel. -/
theorem integrateOver_difference_product :
    let e : Expr ℚ := .binary .subtract
      (.binary .multiply (.sum [Term.ofName "x", Term.ofName "y"])
        (.sum [Term.ofName "x", Term.ofPowers (-2) [("z", -1)]]))
      (.sum [Term.ofPowers 5 [("x", -3), ("y", 1)]])
    ∃ F, (IsStrictOrderedRing ℚ ∧ e.integrate "x" = .ok F) ∧
      (∀ a b, ∃ r, e.integrateOver "x" a b = .ok (.sum r) ∧ TermSum.CanonicalForm r ∧
        "x" ∉ (Expr.sum r).variableNames ∧
        ∀ lookup : Bindings ℚ,
          (∀ other ∈ e.variableNames, other ≠ "x" → ∃ y, lookup other = some y) →
          ∃ upper lower, F.value ((Bindings.only "x" b).followedBy lookup) = .ok upper ∧
            F.value ((Bindings.only "x" a).followedBy lookup) = .ok lower ∧
            (Expr.sum r).value lookup = .ok (upper - lower)) ∧
      (∀ a b c first second whole, e.integrateOver "x" a b = .ok first →
        e.integrateOver "x" b c = .ok second → e.integrateOver "x" a c = .ok whole →
        ∃ total terms, simplify (.binary .add first second) = .sum total ∧
          whole = .sum terms ∧ total.Perm terms) ∧
      ∀ a, e.integrateOver "x" a a = .ok zero := by
  intro e
  obtain ⟨F, hF⟩ := exists_eq_ok_of_isSome
    (show (e.integrate "x").toOption.isSome = true by decide +kernel)
  exact ⟨F, ⟨inferInstance, hF⟩, integrateOver_difference hF⟩

end Expr

end PolyAlgebra
