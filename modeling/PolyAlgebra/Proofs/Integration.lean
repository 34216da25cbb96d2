/-
Antiderivatives.

The antiderivative of a term raises the exponent of the variable by one and divides by the
raised exponent, which is not zero because the exponent -1 is refused.  The derivative takes
both back, whether the variable was there or not.

Sums and differences are integrated operand by operand, and a product is expanded first.  So an
expression that has an antiderivative collapses into a sum, however sums, differences and
products are nested in it, and the antiderivative stands for a polynomial whose derivative is
the polynomial of that sum (`IsAntiderivative`).  That is all the induction has to carry; that
the terms are the same follows because canonical sums for one polynomial have the same terms.
-/
import Mathlib
import PolyAlgebra.Proofs.CanonicalResults
import PolyAlgebra.Proofs.Differentiation

namespace PolyAlgebra

variable {K : Type} [Field K] [LinearOrder K] [FloorRing K] [Unsettled K] {name : String}

/-! ### Terms -/

namespace Term

/-- Raising the exponent of a variable by one multiplies by the variable. -/
theorem toFinsupp_insert_raised (t : Term K) (name : String) :
    (t.powers.insert name (t.exponent name + 1)).toFinsupp
      = t.monomial + Finsupp.single name 1 := by
  ext other
  rw [NameMap.toFinsupp_apply, NameMap.get?_insert, Finsupp.add_apply, Finsupp.single_apply]
  by_cases hname : other = name
  · subst hname
    rw [if_pos rfl, if_pos rfl]
    rfl
  · rw [if_neg hname, if_neg (Ne.symm hname), add_zero]
    rfl

/-- **The derivative of an antiderivative is the term itself.** -/
theorem derivative_of_integrate {t u : Term K} (h : t.integrate name = .ok u) :
    Laurent.derivative name u.polynomial = t.polynomial := by
  rw [integrate] at h
  split at h
  · cases h
  · rename_i hne
    have hraised : t.exponent name + 1 ≠ 0 := fun hzero =>
      hne (beq_iff_eq.mpr (eq_neg_of_add_eq_zero_left hzero))
    have hexponent : (t.monomial + Finsupp.single name 1 : String →₀ K) name
        = t.exponent name + 1 := by
      rw [Finsupp.add_apply, Finsupp.single_eq_same]
      rfl
    obtain rfl := Except.ok.inj h
    rw [polynomial_normalise, toFinsupp_insert_raised, Laurent.derivative_single, hexponent,
      div_mul_cancel₀ _ hraised, add_sub_cancel_right, polynomial]

end Term

/-! ### Sums -/

theorem TermSum.derivative_of_integrals {terms integrals : TermSum K}
    (h : List.Forall₂ (fun t u => t.integrate name = .ok u) terms integrals) :
    Laurent.derivative name (polynomial integrals) = polynomial terms := by
  induction h with
  | nil => rw [polynomial_nil, map_zero]
  | cons ht _ ih =>
    rw [polynomial_cons, polynomial_cons, map_add, Term.derivative_of_integrate ht, ih]

/-- Sums and differences of sums are sums in which the second operand has a sign. -/
theorem TermSum.exists_sign {op : Operator} (hop : op = .add ∨ op = .subtract) :
    ∃ sign : Int, ∀ left right : TermSum K, ∃ terms, combine op left right = .ok terms ∧
      polynomial terms = polynomial left + sign • polynomial right := by
  rcases hop with rfl | rfl
  · refine ⟨1, fun left right => ⟨_, rfl, ?_⟩⟩
    rw [polynomial_reduce, polynomial_append, one_zsmul]
  · refine ⟨-1, fun left right => ⟨_, rfl, ?_⟩⟩
    rw [polynomial_reduce, polynomial_append, polynomial_negate, neg_one_zsmul]

namespace Expr

/-! ### Trees -/

/-- The expression collapses into a sum, which stands for the derivative of the sum `F`. -/
def IsAntiderivative (F e : Expr K) (name : String) : Prop :=
  ∃ terms integrals, e.collapse = .ok terms ∧ F = .sum integrals ∧
    Laurent.derivative name (TermSum.polynomial integrals) = TermSum.polynomial terms

theorem integrateTerms_sound {e F : Expr K} {terms summands : TermSum K}
    (hterms : e.collapse = .ok terms)
    (hp : TermSum.polynomial terms = TermSum.polynomial summands)
    (h : integrateTerms summands name = .ok F) : F.IsAntiderivative e name := by
  rw [integrateTerms] at h
  split at h
  · rename_i integrals hintegrals
    obtain rfl := Except.ok.inj h
    refine ⟨terms, TermSum.reduce integrals, hterms, rfl, ?_⟩
    rw [TermSum.polynomial_reduce, hp,
      TermSum.derivative_of_integrals (mapM_eq_ok_iff.mp hintegrals)]
  · cases h

/-- Antiderivatives are added and subtracted like what they are antiderivatives of. -/
theorem IsAntiderivative.binary {op : Operator} (hop : op = .add ∨ op = .subtract)
    {F G left right : Expr K} (hl : F.IsAntiderivative left name)
    (hr : G.IsAntiderivative right name) :
    (simplify (.binary op F G)).IsAntiderivative (.binary op left right) name := by
  obtain ⟨l, il, hl, rfl, hdl⟩ := hl
  obtain ⟨r, ir, hr, rfl, hdr⟩ := hr
  obtain ⟨sign, hsign⟩ := TermSum.exists_sign (K := K) hop
  obtain ⟨terms, hterms, hp⟩ := hsign l r
  obtain ⟨integrals, hintegrals, hpi⟩ := hsign (TermSum.reduce il) (TermSum.reduce ir)
  have hpower : op ≠ .power := by rcases hop with rfl | rfl <;> simp
  refine ⟨terms, integrals, collapse_binary_eq_ok_iff.mpr ⟨hpower, l, r, hl, hr, hterms⟩,
    simplify_of_collapse
      (collapse_binary_eq_ok_iff.mpr ⟨hpower, _, _, rfl, rfl, hintegrals⟩), ?_⟩
  rw [hpi, hp, TermSum.polynomial_reduce, TermSum.polynomial_reduce, map_add, map_zsmul, hdl, hdr]

/-- **What can be integrated collapses**, and integrating it gives an antiderivative. -/
theorem integrate_sound {e F : Expr K} (h : e.integrate name = .ok F) :
    F.IsAntiderivative e name := by
  induction e using Expr.induct generalizing F with
  | sum raw => exact integrateTerms_sound rfl (TermSum.polynomial_reduce raw) h
  | binary op left right ihl ihr =>
    cases op with
    | add =>
      obtain ⟨l, hl, h⟩ := bind_eq_ok_iff.mp h
      obtain ⟨r, hr, h⟩ := bind_eq_ok_iff.mp h
      obtain rfl := Except.ok.inj h
      exact (ihl hl).binary (.inl rfl) (ihr hr)
    | subtract =>
      obtain ⟨l, hl, h⟩ := bind_eq_ok_iff.mp h
      obtain ⟨r, hr, h⟩ := bind_eq_ok_iff.mp h
      obtain rfl := Except.ok.inj h
      exact (ihl hl).binary (.inr rfl) (ihr hr)
    | multiply =>
      rw [integrate] at h
      split at h
      · rename_i terms hterms
        exact integrateTerms_sound hterms rfl h
      · cases h
    | divide => cases h
    | power => cases h
  | call f arguments _ => cases h

/-- **Differentiating undoes integrating.**  An expression that has an antiderivative simplifies
to a sum of terms, the antiderivative is a sum of terms too, and its derivative has exactly the
terms of the simplified expression, zeros aside. -/
theorem differentiate_integrate {e F : Expr K} (h : e.integrate name = .ok F) :
    ∃ terms integrals d, e.trySimplify = some (.sum terms) ∧ e.simplify = .sum terms ∧
      F = .sum integrals ∧ F.differentiate name = .ok (.sum d) ∧
      (TermSum.nonzeroTerms d).Perm (TermSum.nonzeroTerms terms) := by
  obtain ⟨terms, integrals, hterms, rfl, hderivative⟩ := integrate_sound h
  have hd : TermSum.Canonical
      (TermSum.reduce (integrals.map (fun t => t.differentiate name))) :=
    TermSum.reduce_canonical _
  refine ⟨terms, integrals, _, trySimplify_eq_some_iff.mpr ⟨terms, hterms, rfl⟩,
    simplify_of_collapse hterms, rfl, rfl, ?_⟩
  refine (TermSum.nonzeroTerms_perm_iff hd (collapse_canonicalForm hterms).toCanonical).mpr ?_
  rw [TermSum.polynomial_reduce, TermSum.polynomial_map_differentiate, hderivative]

/-- A product with an exact quotient in it, less a raw sum with a negative exponent and with a
term that does not mention the variable. -/
theorem differentiate_integrate_product :
    let quotient : Expr ℚ := .binary .divide (.sum [Term.ofPowers 2 [("x", 3)]])
      (.sum [Term.ofName "x"])
    let raw : Expr ℚ := .sum [Term.ofPowers 3 [("x", -2)], Term.ofPowers 5 [("y", 2)],
      Term.ofPowers 3 [("x", -2)]]
    let e : Expr ℚ := .binary .subtract
      (.binary .multiply (.sum [Term.ofName "x", Term.ofName "y"]) quotient) raw
    ∃ F, e.integrate "x" = .ok F ∧
      ∃ terms integrals d, e.trySimplify = some (.sum terms) ∧ e.simplify = .sum terms ∧
        F = .sum integrals ∧ F.differentiate "x" = .ok (.sum d) ∧
        (TermSum.nonzeroTerms d).Perm (TermSum.nonzeroTerms terms) := by
  intro quotient raw e
  obtain ⟨F, hF⟩ := exists_eq_ok_of_isSome
    (show (e.integrate "x").toOption.isSome = true by decide +kernel)
  exact ⟨F, hF, differentiate_integrate hF⟩

end Expr

end PolyAlgebra
