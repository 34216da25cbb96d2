/-
Terms that are not zero form a group.

A term stands for a coefficient times a monomial.  Terms are normalised, so no other term stands for
the same (`eq_of_polynomial_eq`).  Whether two ways of computing give the same term, with the same
coefficient and the same powers, is then a question about formal polynomials, where the order in
which variables are met and the variables that cancel on the way leave no trace.

There the product of terms is that of a commutative ring, and the reciprocal of a term that is not
zero is its inverse (`polynomial_multiply_invert`).  Every law below is a law of units of that ring.
-/
import Mathlib
import PolyAlgebra.Proofs.LongDivision

namespace PolyAlgebra.Term

variable {K : Type} [Field K] [LinearOrder K] [FloorRing K] [Unsettled K] {t u q : Term K}

/-! ### Terms and what they stand for -/

/-- **A term is determined by what it stands for.** -/
theorem eq_of_polynomial_eq (h : t.polynomial = u.polynomial) : t = u := by
  rcases AddMonoidAlgebra.single_inj.mp h with ⟨hmonomial, hcoefficient⟩ | ⟨htzero, huzero⟩
  · exact Term.ext hcoefficient (powers_eq_of_monomial_eq hmonomial)
  · rw [eq_zero_of_isZero (beq_iff_eq.mpr htzero), eq_zero_of_isZero (beq_iff_eq.mpr huzero)]

theorem polynomial_ofNumber_one : (ofNumber (1 : K)).polynomial = 1 := by
  rw [ofNumber, polynomial_normalise, NameMap.toFinsupp_empty, AddMonoidAlgebra.one_def]

/-- The exponents of a reciprocal are the opposite ones. -/
theorem toFinsupp_map_neg (p : NameMap K) : (p.map (fun exponent => -exponent)).toFinsupp
    = -p.toFinsupp := by
  ext name
  rw [Finsupp.neg_apply, NameMap.toFinsupp_apply, NameMap.toFinsupp_apply, NameMap.get?_map]
  cases p.get? name <;> simp

/-- **The reciprocal is the inverse.** -/
theorem polynomial_multiply_invert (hu : u.isZero = false) :
    u.polynomial * u.invert.polynomial = 1 := by
  have hc := u.isZero_eq_false_iff.mp hu
  rw [invert, polynomial_normalise, toFinsupp_map_neg, polynomial,
    AddMonoidAlgebra.single_mul_single, monomial, add_neg_cancel, mul_one_div_cancel hc,
    AddMonoidAlgebra.one_def]

/-- A quotient times the divisor is the dividend. -/
theorem polynomial_divide_mul (hu : u.isZero = false) (h : t.divide u = .ok q) :
    q.polynomial * u.polynomial = t.polynomial := by
  have hc := u.isZero_eq_false_iff.mp hu
  obtain ⟨q', hq', hpolynomial⟩ := divide_eq_ok t hc
  obtain rfl := Except.ok.inj (h.symm.trans hq')
  rw [hpolynomial, polynomial, AddMonoidAlgebra.single_mul_single, sub_add_cancel,
    div_mul_cancel₀ _ hc, polynomial]

/-- A term is zero if it stands for zero. -/
theorem polynomial_eq_zero_iff (t : Term K) : t.polynomial = 0 ↔ t.isZero = true := by
  rw [isZero_iff, polynomial, AddMonoidAlgebra.single_eq_zero]

/-- Two terms neither of which is zero have a product that is not zero. -/
theorem isZero_multiply (t u : Term K) : (t.multiply u).isZero = (t.isZero || u.isZero) := by
  rw [Bool.eq_iff_iff, Bool.or_eq_true, ← polynomial_eq_zero_iff, polynomial_multiply, polynomial,
    polynomial, AddMonoidAlgebra.single_mul_single, AddMonoidAlgebra.single_eq_zero, mul_eq_zero,
    isZero_iff, isZero_iff]

theorem isZero_invert (hu : u.isZero = false) : u.invert.isZero = false := by
  by_contra h
  have hzero := u.invert.polynomial_eq_zero_iff.mpr (Bool.eq_true_of_not_eq_false h)
  have hone := polynomial_multiply_invert hu
  rw [hzero, mul_zero] at hone
  exact zero_ne_one hone

/-! ### The laws -/

theorem multiply_comm (t u : Term K) : t.multiply u = u.multiply t := by
  refine eq_of_polynomial_eq ?_
  rw [polynomial_multiply, polynomial_multiply, mul_comm]

theorem multiply_assoc (t u v : Term K) :
    (t.multiply u).multiply v = t.multiply (u.multiply v) := by
  refine eq_of_polynomial_eq ?_
  rw [polynomial_multiply, polynomial_multiply, polynomial_multiply, polynomial_multiply, mul_assoc]

theorem multiply_one (t : Term K) : t.multiply (ofNumber 1) = t := by
  refine eq_of_polynomial_eq ?_
  rw [polynomial_multiply, polynomial_ofNumber_one, mul_one]

theorem multiply_invert (hu : u.isZero = false) : u.multiply u.invert = ofNumber 1 := by
  refine eq_of_polynomial_eq ?_
  rw [polynomial_multiply, polynomial_multiply_invert hu, polynomial_ofNumber_one]

theorem divide_eq_multiply_invert (t : Term K) (hu : u.isZero = false) :
    t.divide u = .ok (t.multiply u.invert) := by
  obtain ⟨q, hq, -⟩ := divide_eq_ok t (u.isZero_eq_false_iff.mp hu)
  rw [hq]
  refine congrArg Except.ok (eq_of_polynomial_eq ?_)
  rw [polynomial_multiply, ← polynomial_divide_mul hu hq, mul_assoc,
    polynomial_multiply_invert hu, mul_one]

theorem multiply_divide_cancel (t : Term K) (hu : u.isZero = false) :
    (t.multiply u).divide u = .ok t := by
  rw [divide_eq_multiply_invert _ hu, multiply_assoc, multiply_invert hu, multiply_one]

theorem invert_invert (hu : u.isZero = false) : u.invert.invert = u := by
  have hinvert := isZero_invert hu
  calc u.invert.invert = u.invert.invert.multiply (ofNumber 1) :=
        (multiply_one _).symm
    _ = (u.multiply u.invert).multiply u.invert.invert := by
        rw [multiply_invert hu, multiply_comm]
    _ = u := by rw [multiply_assoc, multiply_invert hinvert, multiply_one]

/-- **Terms that are not zero form a commutative group**, and each law holds of the terms as they
are computed: the same coefficient and the same powers, without a zero exponent.  The product
commutes and associates for the zero term too, and whatever the dividend is, dividing by a term
that is not zero multiplies by its reciprocal and undoes multiplying. -/
theorem nonzero_group_laws (t u v : Term K) :
    t.multiply u = u.multiply t ∧
    (t.multiply u).multiply v = t.multiply (u.multiply v) ∧
    t.multiply (ofNumber 1) = t ∧
    (t.multiply u).isZero = (t.isZero || u.isZero) ∧
    (u.isZero = false →
      u.invert.isZero = false ∧
      u.multiply u.invert = ofNumber 1 ∧
      (t.multiply u).divide u = .ok t ∧
      t.divide u = .ok (t.multiply u.invert) ∧
      u.invert.invert = u) := by
  refine ⟨multiply_comm t u, multiply_assoc t u v, multiply_one t, isZero_multiply t u,
    fun hne => ?_⟩
  exact ⟨isZero_invert hne, multiply_invert hne, multiply_divide_cancel t hne,
    divide_eq_multiply_invert t hne, invert_invert hne⟩

/-- Fractional and negative exponents, a variable that cancels and one on either side only. -/
theorem nonzero_group_laws_cancelling :
    let t : Term ℚ := ofPowers 3 [("x", 1 / 2), ("y", 2)]
    let u : Term ℚ := ofPowers (-2) [("x", -1 / 2), ("z", 5)]
    let v : Term ℚ := ofPowers (1 / 6) [("y", -2), ("z", -5)]
    u.isZero = false ∧
    t.multiply u = u.multiply t ∧
    (t.multiply u).multiply v = t.multiply (u.multiply v) ∧
    (t.multiply u).divide u = .ok t ∧
    t.divide u = .ok (t.multiply u.invert) ∧
    u.invert.invert = u := by
  intro t u v
  have hne : u.isZero = false := by decide +kernel
  obtain ⟨hcomm, hassoc, -, -, hnonzero⟩ := nonzero_group_laws t u v
  obtain ⟨-, -, hcancel, hdivide, hinvert⟩ := hnonzero hne
  exact ⟨hne, hcomm, hassoc, hcancel, hdivide, hinvert⟩

end PolyAlgebra.Term
