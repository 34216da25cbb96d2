/-
Long division in one variable is Euclidean division.

For a divisor of positive degree the first term of the remainder is its leading term, and the
leading terms of the quotient and of the divisor multiply up to it.  So a step peels the leading
term off the Euclidean quotient, and when nothing is left of that the remainder has too small a
degree to go on.  A quotient has at most one term more than its degree, which is why the limit on
the steps does not matter as long as the degrees differ by less than the limit.
-/
import Mathlib
import PolyAlgebra.Proofs.Univariate

namespace PolyAlgebra

open Polynomial

/-! ### Degrees of quotients -/

section Quotients

variable {K : Type} [Field K] {p b s : K[X]}

theorem degree_lt_degree_mul (hp : p ≠ 0) (hs : s.degree < b.degree) :
    s.degree < (p * b).degree := by
  rw [degree_mul]
  exact hs.trans_le (le_add_of_nonneg_left (zero_le_degree_iff.mpr hp))

theorem natDegree_mul_add (hp : p ≠ 0) (hs : s.degree < b.degree) :
    (p * b + s).natDegree = p.natDegree + b.natDegree := by
  have hb : b ≠ 0 := ne_zero_of_degree_gt hs
  rw [natDegree_add_eq_left_of_degree_lt (degree_lt_degree_mul hp hs), natDegree_mul hp hb]

theorem leadingCoeff_mul_add (hp : p ≠ 0) (hs : s.degree < b.degree) :
    (p * b + s).leadingCoeff = p.leadingCoeff * b.leadingCoeff := by
  rw [leadingCoeff_add_of_degree_lt' (degree_lt_degree_mul hp hs), leadingCoeff_mul]

/-- The degree of the quotient is at most the difference of the degrees. -/
theorem natDegree_div_le (a : K[X]) {b : K[X]} (hb : b ≠ 0) :
    (a / b).natDegree ≤ a.natDegree - b.natDegree := by
  by_cases hq : a / b = 0
  · rw [hq, natDegree_zero]
    exact Nat.zero_le _
  · have hsum := natDegree_mul_add hq (degree_mod_lt a hb)
    rw [mul_comm, EuclideanDomain.div_add_mod] at hsum
    omega

/-- A quotient has at most one term more than its degree. -/
theorem termCount_div_le [CharZero K] (name : String) {a b : K[X]} (hb : b ≠ 0) {n : ℕ}
    (hn : 0 < n) (h : a.natDegree < n + b.natDegree) :
    (Laurent.ofUnivariate name (a / b)).termCount ≤ n := by
  have hle := natDegree_div_le a hb
  have hcount := card_supp_le_succ_natDegree (a / b)
  rw [Laurent.termCount_ofUnivariate]
  omega

end Quotients

/-! ### Peeling off leading terms -/

variable {K : Type} [Field K] [LinearOrder K] [FloorRing K] [Unsettled K]
  [IsStrictOrderedRing K]

namespace TermSum

/-- A polynomial of positive degree does not count as zero. -/
theorem Reduced.isZero_eq_false {terms : TermSum K} (h : Reduced terms) {name : String}
    {p : K[X]} (hp : polynomial terms = Laurent.ofUnivariate name p) (hdegree : 1 ≤ p.natDegree) :
    terms.isZero = false := by
  rw [← Bool.not_eq_true, h.canonical.isZero_iff, hp, Laurent.isNegligible_ofUnivariate_iff]
  rintro ⟨c, rfl, -⟩
  rw [natDegree_C] at hdegree
  omega

/-- **Every step peels the leading term off the quotient**, for a divisor of positive degree and
a remainder of smaller degree. -/
theorem peels_univariate {divisor rest : TermSum K} {leading : Term K} {name : String}
    {b s : K[X]} (hr : Reduced divisor) (hfirst : divisor = leading :: rest)
    (hb : polynomial divisor = Laurent.ofUnivariate name b) (hdegree : 1 ≤ b.natDegree)
    (hs : s.degree < b.degree) :
    Peels divisor leading (Laurent.ofUnivariate name s)
      (fun q => ∃ p, q = Laurent.ofUnivariate name p) := by
  have hbzero : b ≠ 0 := ne_zero_of_natDegree_gt hdegree
  obtain ⟨first, _, heq, hmonomial, hcoefficient, hbdegree⟩ := hr.eq_cons_leading hb hbzero
  obtain ⟨rfl, -⟩ := List.cons.inj (hfirst.symm.trans heq)
  refine ⟨fun remainder hremainder hp => ?_, ?_⟩
  · have hlt : s.natDegree < b.natDegree := by
      by_cases hzero : s = 0
      · rw [hzero, natDegree_zero]
        exact hdegree
      · exact natDegree_lt_natDegree hzero hs
    rw [← Bool.not_eq_true, isDivisible_eq_true_iff, hremainder.degree_eq_natDegree hp, hbdegree,
      Nat.cast_le]
    exact fun h => not_le.mpr hlt h.2
  · rintro _ remainder ⟨p, rfl⟩ hq hremainder hp
    have hpzero : p ≠ 0 := by
      rintro rfl
      exact hq (map_zero _)
    have hnatDegree := natDegree_mul_add hpzero hs
    have hle : b.natDegree ≤ (p * b + s).natDegree := hnatDegree ▸ Nat.le_add_left _ _
    rw [hb, ← map_mul, ← map_add] at hp
    obtain ⟨t, others, rfl, htm, htc, htdegree⟩ := hremainder.eq_cons_leading hp
      (ne_zero_of_natDegree_gt (hdegree.trans hle))
    refine ⟨?_, t, others, Laurent.powerOf name p.natDegree, rfl, ?_, ?_, ?_, p.erase p.natDegree,
      Laurent.erase_ofUnivariate name p p.natDegree⟩
    · rw [isDivisible_eq_true_iff, hremainder.isZero_eq_false hp (hdegree.trans hle), htdegree,
        hbdegree]
      exact ⟨rfl, Nat.cast_le.mpr hle⟩
    · rw [Laurent.coeff_ofUnivariate_powerOf]
      exact leadingCoeff_ne_zero.mpr hpzero
    · rw [htm, hmonomial, hnatDegree, map_add]
    · rw [htc, hcoefficient, leadingCoeff_mul_add hpzero hs, Laurent.coeff_ofUnivariate_powerOf]
      rfl

/-- **Dividing by a polynomial of positive degree is Euclidean division.** -/
theorem divide_univariate {dividend divisor : TermSum K} {name : String} {b p s : K[X]}
    (ha : polynomial dividend = Laurent.ofUnivariate name (p * b + s))
    (hb : polynomial divisor = Laurent.ofUnivariate name b) (hdegree : 1 ≤ b.natDegree)
    (hs : s.degree < b.degree) :
    Ends (divide dividend divisor) divisionSteps (Laurent.ofUnivariate name p)
      (Laurent.ofUnivariate name s) := by
  have hb' := (polynomial_reduce divisor).trans hb
  have hreduced := reduced_reduce divisor
  rw [map_add, map_mul, ← hb] at ha
  refine divide_of_peels (fun hzero => ?_) (fun leading rest hfirst =>
    peels_univariate hreduced hfirst hb' hdegree hs) ⟨p, rfl⟩ ha
  rw [← polynomial_reduce, ← hreduced.canonical.isZero_iff,
    hreduced.isZero_eq_false hb' hdegree] at hzero
  cases hzero

/-- A quotient in one variable that is found is the reduced sum of the polynomial. -/
theorem Ends.eq_ofUnivariate {dividend divisor : TermSum K} {name : String} {p : K[X]}
    {s : Laurent K}
    (h : Ends (divide dividend divisor) divisionSteps (Laurent.ofUnivariate name p) s)
    (hcount : (Laurent.ofUnivariate name p).termCount ≤ divisionSteps) (hs : s.IsNegligible) :
    divide dividend divisor = .ok (ofUnivariate name p) := by
  obtain ⟨quotient, hquotient, hpolynomial⟩ := h.quotient hcount hs
  have hreduced := (divide_sound hquotient).1
  rw [hquotient, hreduced.eq_of_polynomial_eq (reduced_ofUnivariate name p) hpolynomial
    (polynomial_ofUnivariate name p)]

end TermSum

namespace Expr

open TermSum (Canonical Univariate toUnivariate)

/-- **In one variable a division collapses into the Euclidean quotient**, if the Euclidean
remainder is a constant below the tolerance, and does not collapse otherwise.  The limit on the
steps is not what decides. -/
theorem trySimplify_divide_euclidean {name : String} {dividend divisor : TermSum K}
    (hn : Canonical dividend) (hm : Canonical divisor) (ha : Univariate name dividend)
    (hb : Univariate name divisor) (hdegree : 1 ≤ TermSum.degree divisor)
    (hsteps : TermSum.degree dividend - TermSum.degree divisor < 1000) :
    let e := Expr.binary .divide (.sum dividend) (.sum divisor)
    let q := toUnivariate name dividend / toUnivariate name divisor
    let r := toUnivariate name dividend % toUnivariate name divisor
    ((∃ c, r = C c ∧ |c| < 1 / 1000000) →
        e.trySimplify = some (.sum (TermSum.ofUnivariate name q))) ∧
      ((¬ ∃ c, r = C c ∧ |c| < 1 / 1000000) → e.trySimplify = none) ∧
      e.collapse ≠ .error .stepLimit := by
  intro e q r
  have ha := ha.ofUnivariate_toUnivariate.symm
  have hb := hb.ofUnivariate_toUnivariate.symm
  rw [hm.degree_eq_natDegree hb, Nat.one_le_cast] at hdegree
  rw [hn.degree_eq_natDegree ha, hm.degree_eq_natDegree hb, sub_lt_iff_lt_add] at hsteps
  have hbzero := ne_zero_of_natDegree_gt hdegree
  have hsum : q * toUnivariate name divisor + r = toUnivariate name dividend := by
    rw [mul_comm]
    exact EuclideanDomain.div_add_mod _ _
  have hends := TermSum.divide_univariate
    ((TermSum.polynomial_reduce dividend).trans (hsum ▸ ha))
    ((TermSum.polynomial_reduce divisor).trans hb) hdegree (degree_mod_lt _ hbzero)
  have hcount : _ ≤ TermSum.divisionSteps := termCount_div_le name hbzero
    (Nat.succ_pos 999) (by exact_mod_cast hsteps)
  rw [← Laurent.isNegligible_ofUnivariate_iff name, collapse_divide]
  refine ⟨fun hr => ?_, fun hr => ?_, hends.ne_stepLimit hcount⟩
  · refine trySimplify_eq_some_iff.mpr ⟨_, ?_, rfl⟩
    rw [collapse_divide, hends.eq_ofUnivariate hcount hr]
  · rcases hends.remainder hcount hr with herror | herror
    · exact trySimplify_of_error ((collapse_divide _ _).trans herror)
    · exact trySimplify_of_error ((collapse_divide _ _).trans herror)

/-- A cube less one, divided by its obvious factor. -/
theorem trySimplify_cube_minus_one :
    let cube : TermSum ℚ := [Term.ofPowers 1 [("x", 3)], Term.ofPowers (-1) []]
    let line : TermSum ℚ := [Term.ofPowers 1 [("x", 1)], Term.ofPowers (-1) []]
    (Canonical cube ∧ Canonical line ∧ Univariate "x" cube ∧ Univariate "x" line ∧
      1 ≤ TermSum.degree line ∧ TermSum.degree cube - TermSum.degree line < 1000) ∧
    (Expr.binary .divide (.sum cube) (.sum line)).trySimplify
      = some (.sum (TermSum.ofUnivariate "x" (X ^ 2 + X + 1))) := by
  intro cube line
  have hcanonical : Canonical cube :=
    ⟨by decide +kernel, Or.inr ⟨List.cons_ne_nil _ _, by decide +kernel⟩⟩
  have hcanonical' : Canonical line :=
    ⟨by decide +kernel, Or.inr ⟨List.cons_ne_nil _ _, by decide +kernel⟩⟩
  have hunivariate : ∀ n : ℕ, Univariate "x" [Term.ofPowers 1 [("x", (n : ℚ))],
      Term.ofPowers (-1) []] := by
    intro n t ht other exponent hget
    rcases List.mem_pair.mp ht with rfl | rfl
    · have hmem := Term.mem_of_get?_ofPowers hget
      rw [List.mem_singleton, Prod.mk.injEq] at hmem
      exact ⟨hmem.1, n, hmem.2⟩
    · exact absurd (Term.mem_of_get?_ofPowers hget) List.not_mem_nil
  have hcube : Univariate "x" cube := hunivariate 3
  have hline : Univariate "x" line := by simpa using hunivariate 1
  have hdegree : 1 ≤ TermSum.degree line := by decide +kernel
  have hsteps : TermSum.degree cube - TermSum.degree line < 1000 := by decide +kernel
  refine ⟨⟨hcanonical, hcanonical', hcube, hline, hdegree, hsteps⟩, ?_⟩
  have hdivide := trySimplify_divide_euclidean hcanonical hcanonical' hcube hline hdegree hsteps
  have ha : toUnivariate "x" cube = X ^ 3 - 1 := by
    show monomial ⌊(3 : ℚ)⌋₊ 1 + (monomial ⌊(0 : ℚ)⌋₊ (-1) + 0) = _
    rw [Nat.floor_ofNat, Nat.floor_zero, monomial_one_right_eq_X_pow, monomial_zero_left, C_neg,
      C_1, add_zero, sub_eq_add_neg]
  have hb : toUnivariate "x" line = X - 1 := by
    show monomial ⌊(1 : ℚ)⌋₊ 1 + (monomial ⌊(0 : ℚ)⌋₊ (-1) + 0) = _
    rw [Nat.floor_one, Nat.floor_zero, monomial_one_right_eq_X_pow, pow_one, monomial_zero_left,
      C_neg, C_1, add_zero, sub_eq_add_neg]
  have hfactor : (X ^ 3 - 1 : ℚ[X]) = (X - 1) * (X ^ 2 + X + 1) := by ring
  have hne : (X - 1 : ℚ[X]) ≠ 0 := X_sub_C_ne_zero (1 : ℚ)
  rw [ha, hb, hfactor, mul_div_cancel_left₀ _ hne] at hdivide
  refine hdivide.1 ⟨0, ?_, by norm_num⟩
  rw [EuclideanDomain.mod_eq_zero.mpr (dvd_mul_right _ _), C_0]

end Expr

end PolyAlgebra
