/-
Division by a factor, with any number of variables.

The canonical order is no monomial order: the first term of a product need not be the product of
the first terms.  So a step may take a term off the remainder that no term of the quotient
accounts for, and leave the difference to later steps.  But it cannot lose its way.  What is still
missing from the quotient is made of its own terms and of terms that some step took too many, and
each of these, times the first term of the divisor, reaches the degree of the divisor in some
variable (`Reaches`).  The degree in one variable is additive, so a remainder for which something
is missing has at least the degree of the divisor and is divided further (`isDivisible_of_reaches`).

Hence division by a factor stops only when nothing is missing, and then the quotient is right, or
when the steps run out (`quotientTerms_of_reaches`).
-/
import Mathlib
import PolyAlgebra.Proofs.MonomialDivision

namespace PolyAlgebra

/-! ### The degree in one variable -/

namespace Laurent

variable {K : Type} [Field K] [LinearOrder K]

theorem apply_le_degreeOf_of_pos {m : String →₀ K} {name : String} (h : 0 < m name) :
    m name ≤ degreeOf m := by
  have hm : m ≠ 0 := by
    rintro rfl
    exact lt_irrefl _ h
  exact (isGreatest_degreeOf hm).2 ⟨name, h.ne', rfl⟩

theorem exists_apply_eq_degreeOf {m : String →₀ K} (h : m ≠ 0) : ∃ name, m name = degreeOf m := by
  obtain ⟨name, -, heq⟩ := (isGreatest_degreeOf h).1
  exact ⟨name, heq⟩

/-! ### What is missing from a quotient -/

/-- Every term, times a monomial, reaches the degree of the monomial in some variable. -/
def Reaches (q : Laurent K) (μ : String →₀ K) : Prop :=
  ∀ m, q.coeff m ≠ 0 → ∃ name, degreeOf μ ≤ m name + μ name

/-- A term that a step takes off the quotient reaches that degree too. -/
theorem Reaches.sub_single {q : Laurent K} {m μ : String →₀ K} (h : q.Reaches μ) (hm : m ≠ 0)
    (hle : degreeOf μ ≤ degreeOf m) (c : K) :
    (q - AddMonoidAlgebra.single (m - μ) c).Reaches μ := by
  intro n hn
  rw [AddMonoidAlgebra.coeff_sub, Finsupp.sub_apply] at hn
  by_cases hq : q.coeff n = 0
  · rw [hq, zero_sub, neg_ne_zero] at hn
    obtain rfl := eq_of_coeff_single_ne_zero hn
    obtain ⟨name, heq⟩ := exists_apply_eq_degreeOf hm
    refine ⟨name, ?_⟩
    rw [Finsupp.sub_apply, sub_add_cancel, heq]
    exact hle
  · exact h n hq

variable [IsStrictOrderedRing K]

theorem IsPolynomial.reaches {q : Laurent K} (hq : q.IsPolynomial) {μ : String →₀ K}
    (hμ : μ ≠ 0) : q.Reaches μ := by
  intro m hm
  obtain ⟨name, heq⟩ := exists_apply_eq_degreeOf hμ
  refine ⟨name, ?_⟩
  rw [heq]
  exact le_add_of_nonneg_left ((hq m hm).nonneg name)

/-- The largest weights add up in a product, whatever the terms are weighed by. -/
theorem exists_coeff_mul_ne_zero_of_weight {p q : Laurent K} {m μ : String →₀ K}
    (hm : p.coeff m ≠ 0) (hμ : q.coeff μ ≠ 0) (weight : (String →₀ K) →+ K) :
    ∃ n, (p * q).coeff n ≠ 0 ∧ weight m + weight μ ≤ weight n := by
  classical
  have hm := Finsupp.mem_support_iff.mpr hm
  have hμ := Finsupp.mem_support_iff.mpr hμ
  obtain ⟨a, ha, hamax⟩ := p.coeff.support.exists_max_image weight ⟨m, hm⟩
  obtain ⟨b, hb, hbmax⟩ := q.coeff.support.exists_max_image weight ⟨μ, hμ⟩
  have htop : UniqueAdd (p.coeff.support.image weight) (q.coeff.support.image weight)
      (weight a) (weight b) := by
    intro x y hx hy heq
    obtain ⟨n, hn, rfl⟩ := Finset.mem_image.mp hx
    obtain ⟨k, hk, rfl⟩ := Finset.mem_image.mp hy
    exact (add_eq_add_iff_eq_and_eq (hamax n hn) (hbmax k hk)).mp heq
  -- among the terms with the largest weights two do not meet any others
  obtain ⟨n, hn, k, hk, hunique⟩ := UniqueSums.uniqueAdd_of_nonempty
    (A := {m ∈ p.coeff.support | weight m = weight a})
    (B := {m ∈ q.coeff.support | weight m = weight b})
    ⟨a, Finset.mem_filter.mpr ⟨ha, rfl⟩⟩ ⟨b, Finset.mem_filter.mpr ⟨hb, rfl⟩⟩
  obtain ⟨hn, hna⟩ := Finset.mem_filter.mp hn
  obtain ⟨hk, hkb⟩ := Finset.mem_filter.mp hk
  have hunique : UniqueAdd p.coeff.support q.coeff.support n k :=
    UniqueAdd.of_image_filter weight.toAddHom hna hkb htop hunique
  refine ⟨n + k, ?_, ?_⟩
  · rw [AddMonoidAlgebra.coeff_mul_add_of_uniqueAdd hunique]
    exact mul_ne_zero (Finsupp.mem_support_iff.mp hn) (Finsupp.mem_support_iff.mp hk)
  · rw [map_add, hna, hkb]
    exact add_le_add (hamax m hm) (hbmax μ hμ)

/-- The largest exponents of a variable add up in a product. -/
theorem exists_coeff_mul_ne_zero {p q : Laurent K} {m μ : String →₀ K} (hm : p.coeff m ≠ 0)
    (hμ : q.coeff μ ≠ 0) (name : String) :
    ∃ n, (p * q).coeff n ≠ 0 ∧ m name + μ name ≤ n name :=
  exists_coeff_mul_ne_zero_of_weight hm hμ (Finsupp.applyAddHom name)

/-- The lowest exponents of a variable add up in a product, too. -/
theorem exists_coeff_mul_ne_zero_le {p q : Laurent K} {m μ : String →₀ K} (hm : p.coeff m ≠ 0)
    (hμ : q.coeff μ ≠ 0) (name : String) :
    ∃ n, (p * q).coeff n ≠ 0 ∧ n name ≤ m name + μ name := by
  obtain ⟨n, hn, hle⟩ := exists_coeff_mul_ne_zero_of_weight hm hμ (-Finsupp.applyAddHom name)
  have hle : -m name + -μ name ≤ -n name := hle
  exact ⟨n, hn, by linarith⟩

/-- The product with a divisor then has a term of at least the degree of the monomial, which no
constant cancels. -/
theorem Reaches.exists_coeff_ne_zero {q b s : Laurent K} {μ : String →₀ K} (h : q.Reaches μ)
    (hμ : b.coeff μ ≠ 0) (hpos : 0 < degreeOf μ) (hq : q ≠ 0) (hs : s.IsNegligible) :
    ∃ n, (q * b + s).coeff n ≠ 0 ∧ degreeOf μ ≤ degreeOf n := by
  obtain ⟨m, hm⟩ := Laurent.exists_coeff_ne_zero hq
  obtain ⟨name, hname⟩ := h m hm
  obtain ⟨n, hn, hle⟩ := exists_coeff_mul_ne_zero hm hμ name
  have hle := hname.trans hle
  have hn0 : n ≠ 0 := by
    rintro rfl
    exact not_lt.mpr hle hpos
  obtain ⟨c, -, rfl⟩ := hs
  refine ⟨n, ?_, hle.trans (apply_le_degreeOf_of_pos (hpos.trans_le hle))⟩
  rw [AddMonoidAlgebra.coeff_add, Finsupp.add_apply, AddMonoidAlgebra.coeff_single,
    Finsupp.single_eq_of_ne hn0, add_zero]
  exact hn

end Laurent

variable {K : Type} [Field K] [LinearOrder K] [FloorRing K] [Unsettled K]
  [IsStrictOrderedRing K]

namespace TermSum

/-! ### Steps towards the quotient -/

section Steps

variable {divisor : TermSum K} {leading : Term K}

/-- **As long as something is missing, division goes on**, for a divisor of positive degree. -/
theorem isDivisible_of_reaches (hstarts : Starts leading (polynomial divisor))
    (hdegree : degree divisor = Laurent.degreeOf leading.monomial) (hpos : 0 < degree divisor)
    {remainder : TermSum K} (hr : Reduced remainder) {q s : Laurent K}
    (hq : q.Reaches leading.monomial) (hzero : q ≠ 0) (hs : s.IsNegligible)
    (heq : polynomial remainder = q * polynomial divisor + s) :
    isDivisible remainder divisor.degree = true ∧ ∃ first rest, remainder = first :: rest ∧
      degree divisor ≤ Laurent.degreeOf first.monomial := by
  rw [hdegree] at hpos
  obtain ⟨n, hn, hle⟩ := hq.exists_coeff_ne_zero (hstarts.coeff_eq ▸ hstarts.nonzero) hpos hzero hs
  rw [← heq] at hn
  have hn0 : n ≠ 0 := by
    rintro rfl
    rw [Laurent.degreeOf_zero] at hle
    exact not_lt.mpr hle hpos
  have hnonzero : ¬ (polynomial remainder).IsNegligible := by
    rintro ⟨c, -, hc⟩
    rw [hc] at hn
    exact hn0 (Laurent.eq_of_coeff_single_ne_zero hn)
  obtain ⟨first, rest, rfl, hfirst, hfirstDegree⟩ := hr.starts fun h =>
    hnonzero (h ▸ Laurent.isNegligible_zero)
  have hle := hle.trans (hfirst.degree_le n hn)
  rw [isDivisible_eq_true_iff, ← Bool.not_eq_true, hr.canonical.isZero_iff, hfirstDegree, hdegree]
  exact ⟨⟨hnonzero, hle⟩, first, rest, rfl, hle⟩

/-- **Division by a factor finds the quotient or runs out of steps.** -/
theorem quotientTerms_of_reaches (hstarts : Starts leading (polynomial divisor))
    (hdegree : degree divisor = Laurent.degreeOf leading.monomial) (hpos : 0 < degree divisor)
    {s : Laurent K} (hs : s.IsNegligible) :
    ∀ (steps : Nat) (q : Laurent K) (remainder : TermSum K), q.Reaches leading.monomial →
      Reduced remainder → polynomial remainder = q * polynomial divisor + s →
      quotientTerms divisor leading steps remainder = .error .stepLimit ∨
        ∃ terms, quotientTerms divisor leading steps remainder = .ok terms ∧
          polynomial terms = q := by
  -- with nothing missing the division is over
  have hfound : ∀ (steps : Nat) (q : Laurent K) (remainder : TermSum K), q = 0 →
      Reduced remainder → polynomial remainder = q * polynomial divisor + s →
      ∃ terms, quotientTerms divisor leading steps remainder = .ok terms ∧
        polynomial terms = q := by
    rintro steps _ remainder rfl hr heq
    rw [zero_mul, zero_add] at heq
    exact ⟨[], quotientTerms_of_isZero steps (hr.canonical.isZero_iff.mpr (heq ▸ hs)), rfl⟩
  intro steps
  induction steps with
  | zero =>
    intro q remainder hq hr heq
    by_cases hzero : q = 0
    · exact Or.inr (hfound _ q remainder hzero hr heq)
    · exact Or.inl (quotientTerms_zero
        (isDivisible_of_reaches hstarts hdegree hpos hr hq hzero hs heq).1)
  | succ steps ih =>
    intro q remainder hq hr heq
    by_cases hzero : q = 0
    · exact Or.inr (hfound _ q remainder hzero hr heq)
    · obtain ⟨hdivisible, first, rest, rfl, hle⟩ :=
        isDivisible_of_reaches hstarts hdegree hpos hr hq hzero hs heq
      obtain ⟨factor, hfactor, hpolynomial⟩ := Term.divide_eq_ok first hstarts.nonzero
      have hfirst : first.monomial ≠ 0 := by
        intro h
        rw [h, Laurent.degreeOf_zero] at hle
        exact not_lt.mpr hle hpos
      have hrest : polynomial (subtractMultiple (first :: rest) divisor factor)
          = (q - factor.polynomial) * polynomial divisor + s := by
        rw [polynomial_subtractMultiple, heq]
        ring
      have hreaches : (q - factor.polynomial).Reaches leading.monomial :=
        hpolynomial ▸ hq.sub_single hfirst (hdegree ▸ hle) _
      rw [quotientTerms_succ hdivisible hfactor]
      rcases ih _ _ hreaches (reduced_subtractMultiple _ divisor factor) hrest with
        herror | ⟨terms, hterms, hsum⟩
      · exact Or.inl (by rw [herror]; rfl)
      · refine Or.inr ⟨factor :: terms, by rw [hterms]; rfl, ?_⟩
        rw [polynomial_cons, hsum, add_sub_cancel]

end Steps

/-! ### The whole division -/

/-- The same for the whole division by a divisor of positive degree. -/
theorem divide_of_degree_pos {dividend divisor : TermSum K} {m : String →₀ K}
    (hcoeff : (polynomial divisor).coeff m ≠ 0)
    (hpos : 0 < Laurent.degreeOf m) {q s : Laurent K} (hq : q.IsPolynomial) (hs : s.IsNegligible)
    (heq : polynomial dividend = q * polynomial divisor + s) :
    divide dividend divisor = .error .stepLimit ∨
      ∃ quotient, divide dividend divisor = .ok quotient ∧ polynomial quotient = q := by
  have ha := reduced_reduce dividend
  have hb := reduced_reduce divisor
  rw [← polynomial_reduce divisor] at hcoeff heq
  rw [← polynomial_reduce dividend] at heq
  obtain ⟨leading, rest, hfirst, hstarts, hdegree⟩ := hb.starts fun h => by
    rw [h] at hcoeff
    exact hcoeff rfl
  have hpos : 0 < (reduce divisor).degree :=
    hdegree ▸ hpos.trans_le (hstarts.degree_le m hcoeff)
  have hleading : leading.monomial ≠ 0 := by
    intro h
    rw [hdegree, h, Laurent.degreeOf_zero] at hpos
    exact lt_irrefl _ hpos
  have hbz : ¬ (reduce divisor).isZero = true := by
    rw [hb.canonical.isZero_iff]
    rintro ⟨c, -, hc⟩
    exact hleading (Laurent.eq_of_coeff_single_ne_zero
      (hc ▸ hstarts.coeff_eq.symm ▸ hstarts.nonzero))
  by_cases hzero : q = 0
  · rw [hzero, zero_mul, zero_add] at heq
    refine Or.inr ⟨_, divide_of_isZero hbz (ha.canonical.isZero_iff.mpr (heq ▸ hs)), ?_⟩
    simp [hzero, Term.polynomial_zero]
  · have hreaches := hq.reaches hleading
    obtain ⟨hdivisible, -⟩ := isDivisible_of_reaches hstarts hdegree hpos ha hreaches hzero hs heq
    rw [divide_of_isDivisible hfirst hbz hdivisible]
    rcases quotientTerms_of_reaches hstarts hdegree hpos hs divisionSteps q _ hreaches ha heq with
      herror | ⟨terms, hterms, hsum⟩
    · exact Or.inl (by rw [herror]; rfl)
    · exact Or.inr ⟨reduce terms, by rw [hterms]; rfl, (polynomial_reduce terms).trans hsum⟩

/-- **A divisor that divides is found to divide, unless the steps run out.** -/
theorem divide_of_mul_add {dividend divisor : TermSum K} (hb : (polynomial divisor).IsPolynomial)
    (hnonzero : ¬ (polynomial divisor).IsNegligible) {q s : Laurent K} (hq : q.IsPolynomial)
    (hs : s.IsNegligible) (heq : polynomial dividend = q * polynomial divisor + s) :
    (∃ quotient, divide dividend divisor = .ok quotient) ∨
      divide dividend divisor = .error .stepLimit := by
  by_cases hconstant : ∃ m, (polynomial divisor).coeff m ≠ 0 ∧ m ≠ 0
  · obtain ⟨m, hcoeff, hm0⟩ := hconstant
    rcases divide_of_degree_pos hcoeff ((hb m hcoeff).degreeOf_pos hm0) hq hs heq with
      herror | ⟨quotient, hquotient, -⟩
    · exact Or.inr herror
    · exact Or.inl ⟨quotient, hquotient⟩
  · push Not at hconstant
    have hsingle : polynomial divisor
        = AddMonoidAlgebra.single 0 ((polynomial divisor).coeff 0) := by
      refine AddMonoidAlgebra.ext (Finsupp.ext fun m => ?_)
      rw [AddMonoidAlgebra.coeff_single, Finsupp.single_apply]
      split
      · rename_i h
        rw [h]
      · rename_i h
        by_contra hne
        exact h (hconstant m hne).symm
    obtain ⟨q', s', -, hs', hends⟩ :=
      exists_ends_single Laurent.isNatural_zero hsingle hnonzero hq hs heq
    rcases le_or_gt q'.termCount divisionSteps with hle | hlt
    · obtain ⟨quotient, hquotient, -⟩ := hends.quotient hle hs'
      exact Or.inl ⟨quotient, hquotient⟩
    · exact Or.inr (hends.stepLimit hlt)

end TermSum

end PolyAlgebra
