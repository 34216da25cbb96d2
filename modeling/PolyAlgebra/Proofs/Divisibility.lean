/-
What a division that succeeds says about divisibility.

A quotient that is found is right up to a constant below the tolerance, but its exponents may be
negative.  Conversely, a polynomial that the divisor divides, up to such a constant, is divided
unless the steps run out (`divide_of_mul_add`).  They suffice for a quotient that has no more terms
than there are steps, if there is one common variable only (`divide_univariate_iff`) or the divisor
is a single term (`divide_single`).

With two variables and several terms in the divisor no number of steps need suffice.  The canonical
order looks at the largest single exponent of a term, so the first term of a product need not be
the product of the first terms.  Then division can go on for ever although there is a quotient
(`divide_endless`).
-/
import Mathlib
import PolyAlgebra.Proofs.EuclideanDivision
import PolyAlgebra.Proofs.ExactDivision

namespace PolyAlgebra

open Polynomial

namespace Laurent

variable {K : Type} [Field K]

/-! ### Divisibility -/

/-- Divisibility of polynomials. -/
def Divides (b a : Laurent K) : Prop := ∃ q : Laurent K, q.IsPolynomial ∧ a = q * b

/-- A term divides another only if no exponent is larger. -/
theorem Divides.isNatural_sub {m μ : String →₀ K} {c β : K} (hc : c ≠ 0)
    (h : Divides (AddMonoidAlgebra.single μ β) (AddMonoidAlgebra.single m c)) :
    IsNatural (m - μ) := by
  obtain ⟨q, hq, heq⟩ := h
  have hcoeff := congrArg (fun p : Laurent K => p.coeff m) heq
  rw [AddMonoidAlgebra.coeff_single, Finsupp.single_eq_same,
    AddMonoidAlgebra.coeff_mul_single_apply, ← sub_eq_add_neg] at hcoeff
  exact hq _ (left_ne_zero_of_mul (hcoeff ▸ hc))

/-! ### Setting variables to one -/

/-- The polynomial with every other variable set to one. -/
noncomputable def restrict (name : String) : Laurent K →+* Laurent K :=
  AddMonoidAlgebra.mapDomainRingHom K ((Finsupp.singleAddHom name).comp (Finsupp.applyAddHom name))

theorem coeff_restrict (name : String) (q : Laurent K) :
    (restrict name q).coeff
      = Finsupp.mapDomain (fun m : String →₀ K => Finsupp.single name (m name)) q.coeff := by
  rw [restrict, AddMonoidAlgebra.mapDomainRingHom_apply, AddMonoidAlgebra.coeff_mapDomain]
  rfl

theorem termCount_restrict_le (name : String) (q : Laurent K) :
    (restrict name q).termCount ≤ q.termCount := by
  classical
  rw [termCount, coeff_restrict]
  exact (Finset.card_le_card Finsupp.mapDomain_support).trans Finset.card_image_le

theorem restrict_ofUnivariate (name : String) (p : K[X]) :
    restrict name (ofUnivariate name p) = ofUnivariate name p := by
  refine AddMonoidAlgebra.ext ?_
  rw [coeff_restrict, coeff_ofUnivariate, ← Finsupp.mapDomain_comp]
  refine congrArg (Finsupp.mapDomain · _) (funext fun n => ?_)
  rw [Function.comp_apply, powerOf_apply, Finsupp.single_eq_same]

theorem IsPolynomial.exists_restrict_eq [CharZero K] {q : Laurent K} (hq : q.IsPolynomial)
    (name : String) : ∃ p, restrict name q = ofUnivariate name p := by
  classical
  refine exists_eq_ofUnivariate fun m hm => ?_
  rw [coeff_restrict] at hm
  obtain ⟨μ, hμ, rfl⟩ := Finset.mem_image.mp
    (Finsupp.mapDomain_support (Finsupp.mem_support_iff.mpr hm))
  obtain ⟨n, hn⟩ := hq μ (Finsupp.mem_support_iff.mp hμ) name
  exact ⟨n, by rw [powerOf_apply, hn]⟩

theorem isPolynomial_ofUnivariate (name : String) (p : K[X]) :
    (ofUnivariate name p).IsPolynomial := by
  intro m hm
  obtain ⟨n, rfl⟩ := exists_of_coeff_ofUnivariate_ne_zero hm
  exact isNatural_single name n

theorem divides_geometric (name : String) (n : ℕ) :
    (ofUnivariate name (X - 1)).Divides (ofUnivariate name (X ^ n - 1) : Laurent K) := by
  refine ⟨ofUnivariate name (∑ i ∈ Finset.range n, X ^ i), isPolynomial_ofUnivariate name _, ?_⟩
  rw [← map_mul, mul_comm, mul_geom_sum]

/-! ### Divisibility up to a constant -/

variable [LinearOrder K]

/-- Divisibility of polynomials by a quotient of no more terms than there are steps, up to a
constant below the tolerance. -/
def NearlyDivides (b a : Laurent K) : Prop :=
  ∃ q s : Laurent K, q.IsPolynomial ∧ q.termCount ≤ TermSum.divisionSteps ∧ s.IsNegligible ∧
    a = q * b + s

/-- A quotient by a constant has no exponents but those of the dividend. -/
theorem isPolynomial_of_mul_single {a q s : Laurent K} {β : K} (hβ : β ≠ 0)
    (ha : a.IsPolynomial) (hs : s.IsNegligible)
    (h : a = q * AddMonoidAlgebra.single 0 β + s) : q.IsPolynomial := by
  obtain ⟨c, -, rfl⟩ := hs
  have hq : q = (a + AddMonoidAlgebra.single 0 (-c)) * AddMonoidAlgebra.single 0 β⁻¹ := by
    rw [h, AddMonoidAlgebra.single_neg, add_neg_cancel_right, mul_assoc,
      AddMonoidAlgebra.single_mul_single, add_zero, mul_inv_cancel₀ hβ]
    exact (mul_one q).symm
  intro m hm
  rw [hq, AddMonoidAlgebra.coeff_mul_single_apply, neg_zero, add_zero] at hm
  exact (ha.add (isPolynomial_single isNatural_zero (-c))) m (left_ne_zero_of_mul hm)

end Laurent

variable {K : Type} [Field K] [LinearOrder K] [FloorRing K] [Unsettled K]

namespace TermSum

/-! ### Sums with natural exponents -/

/-- A canonical sum all of whose exponents are natural numbers. -/
structure IsPolynomial (terms : TermSum K) : Prop where
  canonical : Canonical terms
  natural : ∀ t ∈ terms, ∀ name exponent, t.powers.get? name = some exponent →
    ∃ n : ℕ, exponent = n

theorem IsPolynomial.isNatural_monomial {terms : TermSum K} (h : IsPolynomial terms) {t : Term K}
    (ht : t ∈ terms) : Laurent.IsNatural t.monomial := by
  intro name
  rw [Term.monomial, NameMap.toFinsupp_apply]
  cases hget : t.powers.get? name with
  | none => exact ⟨0, by simp⟩
  | some exponent => exact h.natural t ht name exponent hget

theorem IsPolynomial.polynomial {terms : TermSum K} (h : IsPolynomial terms) :
    terms.polynomial.IsPolynomial := by
  intro m hm
  obtain ⟨t, ht, rfl⟩ := exists_mem_of_coeff_ne_zero hm
  exact h.isNatural_monomial ht

/-- The sum of multiples of monomials with natural exponents. -/
def ofMonomials (l : List (K × List (String × ℕ))) : TermSum K :=
  l.map fun e => Term.ofPowers e.1 (e.2.map fun p => (p.1, (p.2 : K)))

theorem isPolynomial_ofMonomials {l : List (K × List (String × ℕ))} (hne : l ≠ [])
    (hdistinct : (ofMonomials l).Pairwise (fun s t => s.hasPowersOf t = false))
    (hnonzero : ∀ t ∈ ofMonomials l, t.isZero = false) :
    (ofMonomials l).IsPolynomial ∧ polynomial (ofMonomials l) ≠ 0 := by
  have hcanonical : Canonical (ofMonomials l) := by
    refine ⟨hdistinct, Or.inr ⟨?_, hnonzero⟩⟩
    rwa [ne_eq, ofMonomials, List.map_eq_nil_iff]
  refine ⟨⟨hcanonical, fun t ht name exponent hget => ?_⟩, hcanonical.polynomial_ne_zero hnonzero⟩
  obtain ⟨e, -, rfl⟩ := List.mem_map.mp ht
  obtain ⟨p, -, hp⟩ := List.mem_map.mp (Term.mem_of_get?_ofPowers hget)
  exact ⟨p.2, (Prod.mk.inj hp).2.symm⟩

theorem polynomial_ofMonomials {l : List (K × List (String × ℕ))}
    (h : ∀ e ∈ l, (e.2.map Prod.fst).Nodup) :
    polynomial (ofMonomials l) = (l.map fun e =>
      AddMonoidAlgebra.single (e.2.map fun p => Finsupp.single p.1 (p.2 : K)).sum e.1).sum := by
  rw [polynomial, ofMonomials, List.map_map]
  refine congrArg List.sum (List.map_congr_left fun e he => ?_)
  have hnodup : ((e.2.map fun p => (p.1, (p.2 : K))).map Prod.fst).Nodup := by
    rw [List.map_map]
    exact h e he
  rw [Function.comp_apply, Term.polynomial_ofPowers _ hnodup, List.map_map]
  rfl

variable [IsStrictOrderedRing K]

/-- In one variable a division by a polynomial of positive degree succeeds exactly if the
divisor nearly divides the dividend. -/
theorem divide_eq_ok_iff_nearlyDivides {dividend divisor : TermSum K} {name : String}
    {a b : K[X]} (ha : polynomial dividend = Laurent.ofUnivariate name a)
    (hb : polynomial divisor = Laurent.ofUnivariate name b) (hdegree : 1 ≤ b.natDegree) :
    (∃ quotient, divide dividend divisor = .ok quotient) ↔
      (polynomial divisor).NearlyDivides (polynomial dividend) := by
  have hbzero := ne_zero_of_natDegree_gt hdegree
  constructor
  · rintro ⟨quotient, hquotient⟩
    have hsum : a / b * b + a % b = a := by
      rw [mul_comm]
      exact EuclideanDomain.div_add_mod a b
    obtain ⟨hcount, hs⟩ := (divide_univariate (hsum.symm ▸ ha) hb hdegree
      (degree_mod_lt a hbzero)).of_ok hquotient
    refine ⟨Laurent.ofUnivariate name (a / b), Laurent.ofUnivariate name (a % b),
      Laurent.isPolynomial_ofUnivariate name _, hcount, hs, ?_⟩
    rw [ha, hb, ← map_mul, ← map_add, hsum]
  · rintro ⟨q, s, hq, hcount, hs, heq⟩
    -- the other variables play no part
    obtain ⟨p, hp⟩ := hq.exists_restrict_eq name
    obtain ⟨c, hc, rfl⟩ := hs
    have hrestrict := congrArg (Laurent.restrict name) heq
    rw [ha, hb, map_add, map_mul, hp, ← Laurent.ofUnivariate_C name,
      Laurent.restrict_ofUnivariate, Laurent.restrict_ofUnivariate, Laurent.restrict_ofUnivariate,
      ← map_mul, ← map_add] at hrestrict
    have hsmall : (C c).degree < b.degree :=
      degree_C_le.trans_lt (natDegree_pos_iff_degree_pos.mp hdegree)
    have hends := divide_univariate (ha.trans hrestrict) hb hdegree hsmall
    have hcount := (Laurent.termCount_restrict_le name q).trans hcount
    rw [hp] at hcount
    obtain ⟨quotient, hquotient, -⟩ := hends.quotient hcount ⟨c, hc, Laurent.ofUnivariate_C name c⟩
    exact ⟨quotient, hquotient⟩

/-- What is found is a quotient, up to a constant below the tolerance. -/
theorem exists_quotient_of_divide {dividend divisor : TermSum K}
    (h : ∃ quotient, divide dividend divisor = .ok quotient) :
    ¬ (polynomial divisor).IsNegligible ∧ ∃ q s : Laurent K, q.termCount ≤ divisionSteps ∧
      s.IsNegligible ∧ polynomial dividend = q * polynomial divisor + s := by
  obtain ⟨quotient, hquotient⟩ := h
  obtain ⟨-, hnonzero, hcount, hs⟩ := divide_sound hquotient
  exact ⟨hnonzero, polynomial quotient, _, hcount, hs, (add_sub_cancel _ _).symm⟩

/-- **In one variable a division succeeds exactly if the divisor nearly divides the dividend**,
provided that it does not count as zero. -/
theorem divide_univariate_iff {dividend divisor : TermSum K} {name : String}
    {a b : K[X]} (ha : polynomial dividend = Laurent.ofUnivariate name a)
    (hb : polynomial divisor = Laurent.ofUnivariate name b) :
    (∃ quotient, divide dividend divisor = .ok quotient) ↔
      ¬ (polynomial divisor).IsNegligible ∧
        (polynomial divisor).NearlyDivides (polynomial dividend) := by
  by_cases hdegree : 1 ≤ b.natDegree
  · have hiff := divide_eq_ok_iff_nearlyDivides ha hb hdegree
    exact ⟨fun h => ⟨(exists_quotient_of_divide h).1, hiff.mp h⟩, fun h => hiff.mpr h.2⟩
  · -- the divisor is a constant
    obtain ⟨β, rfl⟩ := natDegree_eq_zero.mp (Nat.lt_one_iff.mp (not_le.mp hdegree))
    rw [Laurent.ofUnivariate_C] at hb
    constructor
    · intro h
      obtain ⟨hnonzero, q, s, hcount, hs, hsum⟩ := exists_quotient_of_divide h
      have hβ : β ≠ 0 := by
        rintro rfl
        rw [hb, AddMonoidAlgebra.single_zero] at hnonzero
        exact hnonzero Laurent.isNegligible_zero
      have hq := Laurent.isPolynomial_of_mul_single hβ
        (Laurent.isPolynomial_ofUnivariate name a) hs (ha ▸ hb ▸ hsum)
      exact ⟨hnonzero, q, s, hq, hcount, hs, hsum⟩
    · rintro ⟨hnonzero, q, s, hq, hcount, hs, hsum⟩
      exact divide_single Laurent.isNatural_zero hb hnonzero hq hcount hs hsum

/-! ### A quotient with too many terms -/

/-- The quotient of `x ^ n - 1` by `x - 1` has `n` terms, and is not found if these are more than
there are steps. -/
theorem divide_geometric {dividend divisor : TermSum K} {name : String} {n : ℕ}
    (hsteps : divisionSteps < n)
    (ha : polynomial dividend = Laurent.ofUnivariate name (X ^ n - 1))
    (hb : polynomial divisor = Laurent.ofUnivariate name (X - 1)) :
    divide dividend divisor = .error .stepLimit := by
  have hgeometric : (∑ i ∈ Finset.range n, X ^ i) * (X - 1) + 0 = (X ^ n - 1 : K[X]) := by
    rw [add_zero, mul_comm, mul_geom_sum]
  have hsupport : (∑ i ∈ Finset.range n, X ^ i : K[X]).support = Finset.range n := by
    ext i
    simp [coeff_X_pow]
  have hdegree : (X - 1 : K[X]).natDegree = 1 := natDegree_X_sub_C 1
  have hends := divide_univariate (hgeometric.symm ▸ ha) hb hdegree.ge (by
    rw [Polynomial.degree_zero, bot_lt_iff_ne_bot]
    exact degree_ne_bot.mpr (ne_zero_of_natDegree_gt hdegree.ge))
  refine hends.stepLimit ?_
  rw [Laurent.termCount_ofUnivariate, hsupport, Finset.card_range]
  exact hsteps

/-! ### An endless division -/

section Endless

/-- A power of `x` times a power of `y`. -/
noncomputable def xy {K : Type} [Field K] (i j : K) : String →₀ K :=
  Finsupp.single "x" i + Finsupp.single "y" j

variable {K : Type} [Field K]

theorem xy_add (i j i' j' : K) : xy i j + xy i' j' = xy (i + i') (j + j') := by
  rw [xy, xy, xy, Finsupp.single_add, Finsupp.single_add, add_add_add_comm]

theorem xy_sub (i j i' j' : K) : xy i j - xy i' j' = xy (i - i') (j - j') := by
  rw [sub_eq_iff_eq_add, xy_add, sub_add_cancel, sub_add_cancel]

theorem xy_apply_x (i j : K) : xy i j "x" = i := by simp [xy]

theorem xy_apply_y (i j : K) : xy i j "y" = j := by simp [xy]

theorem isNatural_xy (i j : ℕ) : Laurent.IsNatural (xy (i : K) j) :=
  (Laurent.isNatural_single "x" i).add (Laurent.isNatural_single "y" j)

/-- What is left after `k` steps of dividing `x ^ 2 * y ^ 2 - y ^ 3` by `x ^ 2 - y`. -/
noncomputable def endlessRemainder (K : Type) [Field K] (k : ℕ) : Laurent K :=
  AddMonoidAlgebra.single (xy (-(2 * k : K)) (k + 3)) (-1) + AddMonoidAlgebra.single (xy 2 2) 1

/-- Every step trades a power of `x ^ 2` for one of `y`. -/
theorem endlessRemainder_succ (k : ℕ) :
    endlessRemainder K (k + 1) = endlessRemainder K k
      - AddMonoidAlgebra.single (xy (-(2 * k : K)) (k + 3) - xy 2 0) (-1)
        * (AddMonoidAlgebra.single (xy 2 0) 1 + AddMonoidAlgebra.single (xy 0 1) (-1)) := by
  have hnext : xy (-(2 * k : K)) (k + 3) - xy 2 0 + xy 0 1
      = xy (-(2 * ((k + 1 : ℕ) : K))) ((k + 1 : ℕ) + 3) := by
    rw [xy_sub, xy_add, Nat.cast_add_one]
    congr 1 <;> ring
  rw [mul_add, AddMonoidAlgebra.single_mul_single, AddMonoidAlgebra.single_mul_single,
    sub_add_cancel, hnext, endlessRemainder, endlessRemainder, mul_one, neg_mul_neg, mul_one,
    AddMonoidAlgebra.single_neg, AddMonoidAlgebra.single_neg]
  abel

theorem divides_endless :
    Laurent.Divides (AddMonoidAlgebra.single (xy 2 0) 1 + AddMonoidAlgebra.single (xy 0 1) (-1))
      (AddMonoidAlgebra.single (xy 2 2) 1 + AddMonoidAlgebra.single (xy 0 3) (-1) : Laurent K) := by
  have hnatural : Laurent.IsNatural (xy 0 2 : String →₀ K) := by simpa using isNatural_xy 0 2
  refine ⟨AddMonoidAlgebra.single (xy 0 2) 1, Laurent.isPolynomial_single hnatural 1, ?_⟩
  rw [mul_add, AddMonoidAlgebra.single_mul_single, AddMonoidAlgebra.single_mul_single, xy_add,
    xy_add]
  norm_num

variable [LinearOrder K]

theorem degreeOf_xy {i j : K} (hi : i ≤ j) (hj : 0 < j) : Laurent.degreeOf (xy i j) = j := by
  have hy : xy i j "y" ≠ 0 := by
    rw [xy_apply_y]
    exact hj.ne'
  have hne : xy i j ≠ 0 := fun h => hy (by rw [h, Finsupp.zero_apply])
  refine (Laurent.isGreatest_degreeOf hne).unique ⟨⟨"y", hy, xy_apply_y i j⟩, ?_⟩
  rintro _ ⟨name, hname, rfl⟩
  by_cases hx : name = "x"
  · rw [hx, xy_apply_x]
    exact hi
  · by_cases hy : name = "y"
    · rw [hy, xy_apply_y]
    · refine absurd ?_ hname
      rw [xy, Finsupp.add_apply, Finsupp.single_eq_of_ne hx, Finsupp.single_eq_of_ne hy, add_zero]

end Endless

/-- A reduced sum of two terms of different degrees starts with the one of the larger degree. -/
theorem Reduced.eq_cons_of_degree_lt {terms : TermSum K} (h : Reduced terms)
    {m m' : String →₀ K} {c c' : K}
    (hp : polynomial terms = AddMonoidAlgebra.single m c + AddMonoidAlgebra.single m' c')
    (hc : c ≠ 0) (hlt : Laurent.degreeOf m' < Laurent.degreeOf m)
    (hpos : 0 < Laurent.degreeOf m) :
    terms.isZero = false ∧ degree terms = Laurent.degreeOf m ∧
      ∃ first rest, terms = first :: rest ∧ first.monomial = m ∧ first.coefficient = c := by
  have hm : m ≠ 0 := by
    rintro rfl
    rw [Laurent.degreeOf_zero] at hpos
    exact lt_irrefl _ hpos
  have hnonzero : ¬ (polynomial terms).IsNegligible := by
    rintro ⟨d, -, heq⟩
    have hcoeff := Laurent.coeff_single_add_single c c' (Laurent.ne_of_degreeOf_lt hlt).symm
    rw [← hp, heq] at hcoeff
    exact hm (Laurent.eq_of_coeff_single_ne_zero (hcoeff ▸ hc))
  obtain ⟨first, rest, rfl, hstarts, hdegree⟩ := h.starts fun h0 =>
    hnonzero (h0 ▸ Laurent.isNegligible_zero)
  obtain ⟨hmonomial, hcoefficient⟩ := (hp ▸ hstarts).eq_of_degree_lt hc hlt
  refine ⟨?_, hmonomial ▸ hdegree, first, rest, rfl, hmonomial, hcoefficient⟩
  rwa [← Bool.not_eq_true, h.canonical.isZero_iff]

/-- **A division by a factor that does not end**: the factor is `x ^ 2 - y`, and the quotient
would be `y ^ 2`. -/
theorem divide_endless {dividend divisor : TermSum K}
    (ha : polynomial dividend
      = AddMonoidAlgebra.single (xy 2 2) 1 + AddMonoidAlgebra.single (xy 0 3) (-1))
    (hb : polynomial divisor
      = AddMonoidAlgebra.single (xy 2 0) 1 + AddMonoidAlgebra.single (xy 0 1) (-1)) :
    divide dividend divisor = .error .stepLimit := by
  have hreduced := reduced_reduce dividend
  have hreduced' := reduced_reduce divisor
  rw [← polynomial_reduce] at ha hb
  have hxx : Laurent.degreeOf (xy 2 0 : String →₀ K) = 2 := by
    rw [xy, Finsupp.single_zero, add_zero, Laurent.degreeOf_single]
  have hy : Laurent.degreeOf (xy 0 1 : String →₀ K) = 1 :=
    degreeOf_xy zero_le_one zero_lt_one
  have hxxyy : Laurent.degreeOf (xy 2 2 : String →₀ K) = 2 := degreeOf_xy le_rfl two_pos
  obtain ⟨hbz, hbdegree, first, others, hfirst, hmonomial, hcoefficient⟩ :=
    hreduced'.eq_cons_of_degree_lt hb one_ne_zero (by rw [hy, hxx]; exact one_lt_two)
      (by rw [hxx]; exact two_pos)
  -- the degree of what is left rises from step to step
  have hdegree : ∀ k : ℕ, Laurent.degreeOf (xy (-(2 * k : K)) (k + 3)) = k + 3 := by
    intro k
    have hk : (0 : K) ≤ k := Nat.cast_nonneg k
    exact degreeOf_xy (by linarith) (by linarith)
  have hstep : ∀ k remainder, Reduced remainder → polynomial remainder = endlessRemainder K k →
      isDivisible remainder (reduce divisor).degree = true ∧
      ∃ first' rest, remainder = first' :: rest ∧
        endlessRemainder K (k + 1) = endlessRemainder K k
          - AddMonoidAlgebra.single (first'.monomial - first.monomial)
            (first'.coefficient / first.coefficient) * polynomial (reduce divisor) := by
    intro k remainder hr heq
    have hk : (0 : K) ≤ k := Nat.cast_nonneg k
    obtain ⟨hz, hd, first', rest, hcons, hmonomial', hcoefficient'⟩ :=
      hr.eq_cons_of_degree_lt heq (neg_ne_zero.mpr one_ne_zero)
        (by rw [hdegree, hxxyy]; linarith) (by rw [hdegree]; linarith)
    refine ⟨?_, first', rest, hcons, ?_⟩
    · rw [isDivisible_eq_true_iff, hd, hdegree, hbdegree, hxx]
      exact ⟨hz, by linarith⟩
    · rw [hmonomial', hmonomial, hcoefficient', hcoefficient, div_one, hb]
      exact endlessRemainder_succ k
  have h0 : polynomial (reduce dividend) = endlessRemainder K 0 := by
    rw [ha, endlessRemainder, Nat.cast_zero, mul_zero, neg_zero, zero_add, add_comm]
  have hl : first.coefficient ≠ 0 := by
    rw [hcoefficient]
    exact one_ne_zero
  rw [divide_of_isDivisible hfirst (by rw [hbz]; simp) (hstep 0 _ hreduced h0).1,
    quotientTerms_of_endless hl hstep divisionSteps 0 _ hreduced h0]
  rfl

end TermSum

namespace Expr

theorem isSome_trySimplify_divide_iff {dividend divisor : TermSum K} :
    (Expr.binary .divide (.sum dividend) (.sum divisor)).trySimplify.isSome = true ↔
      ∃ quotient, TermSum.divide dividend.reduce divisor.reduce = .ok quotient := by
  rw [isSome_trySimplify_iff, collapse_divide]

theorem trySimplify_divide_of_stepLimit {dividend divisor : TermSum K}
    (h : TermSum.divide dividend.reduce divisor.reduce = .error .stepLimit) :
    (Expr.binary .divide (.sum dividend) (.sum divisor)).trySimplify = none :=
  trySimplify_of_error (by rw [collapse_divide, h])

variable [IsStrictOrderedRing K]

/-- **When a division by a polynomial succeeds.**  If it does, the divisor does not count as zero,
and the dividend is a multiple of it up to a constant below the tolerance; the exponents of the
quotient may be negative.  If the dividend is such a multiple, with natural exponents in the
quotient, division succeeds unless the steps run out.  By a single term that does not count as zero
it succeeds if the divisor nearly divides the dividend.  In one variable it succeeds exactly in
that case. -/
theorem trySimplify_divide_divisibility {dividend divisor : TermSum K}
    (hb : divisor.IsPolynomial) :
    let e := Expr.binary .divide (.sum dividend) (.sum divisor)
    let succeeds := e.trySimplify.isSome = true
    (succeeds → ¬ divisor.polynomial.IsNegligible ∧ ∃ q s : Laurent K,
      q.termCount ≤ TermSum.divisionSteps ∧ s.IsNegligible ∧
        dividend.polynomial = q * divisor.polynomial + s) ∧
    (¬ divisor.polynomial.IsNegligible → (∃ q s : Laurent K, q.IsPolynomial ∧ s.IsNegligible ∧
        dividend.polynomial = q * divisor.polynomial + s) →
      succeeds ∨ e.collapse = .error .stepLimit) ∧
    ((∃ t, divisor = [t]) → ¬ divisor.polynomial.IsNegligible →
      divisor.polynomial.NearlyDivides dividend.polynomial → succeeds) ∧
    ((∃ name, dividend.Univariate name ∧ divisor.Univariate name) →
      (succeeds ↔ ¬ divisor.polynomial.IsNegligible ∧
        divisor.polynomial.NearlyDivides dividend.polynomial)) := by
  intro e succeeds
  have hsucceeds : succeeds ↔ ∃ quotient,
      TermSum.divide dividend.reduce divisor.reduce = .ok quotient :=
    isSome_trySimplify_divide_iff
  have hpolynomial := hb.polynomial
  rw [← TermSum.polynomial_reduce divisor] at hpolynomial
  rw [hsucceeds, collapse_divide, ← TermSum.polynomial_reduce dividend,
    ← TermSum.polynomial_reduce divisor]
  refine ⟨TermSum.exists_quotient_of_divide, ?_, ?_, ?_⟩
  · rintro hnonzero ⟨q, s, hq, hs, hsum⟩
    exact TermSum.divide_of_mul_add hpolynomial hnonzero hq hs hsum
  · rintro ⟨t, rfl⟩ hnonzero ⟨q, s, hq, hcount, hs, hsum⟩
    have hsingle : TermSum.polynomial (TermSum.reduce [t])
        = AddMonoidAlgebra.single t.monomial t.coefficient := by
      rw [TermSum.polynomial_reduce, TermSum.polynomial_cons, TermSum.polynomial_nil, add_zero,
        Term.polynomial]
    exact TermSum.divide_single (hb.isNatural_monomial List.mem_cons_self) hsingle hnonzero
      hq hcount hs hsum
  · rintro ⟨name, hua, hub⟩
    exact TermSum.divide_univariate_iff
      ((TermSum.polynomial_reduce dividend).trans hua.ofUnivariate_toUnivariate.symm)
      ((TermSum.polynomial_reduce divisor).trans hub.ofUnivariate_toUnivariate.symm)

/-- `x ^ 2 * y + x * y` divided by `x * y`. -/
theorem trySimplify_divide_single_term :
    let dividend : TermSum ℚ :=
      TermSum.ofMonomials [(1, [("x", 2), ("y", 1)]), (1, [("x", 1), ("y", 1)])]
    let divisor : TermSum ℚ := TermSum.ofMonomials [(1, [("x", 1), ("y", 1)])]
    divisor.IsPolynomial ∧
    (Expr.binary .divide (.sum dividend) (.sum divisor)).trySimplify.isSome = true := by
  intro dividend divisor
  have hb : divisor.IsPolynomial := (TermSum.isPolynomial_ofMonomials (List.cons_ne_nil _ _)
    (by decide +kernel) (by decide +kernel)).1
  have hdividend : dividend.polynomial = AddMonoidAlgebra.single (TermSum.xy 2 1) 1
      + AddMonoidAlgebra.single (TermSum.xy 1 1) 1 := by
    rw [TermSum.polynomial_ofMonomials (by simp)]
    simp [TermSum.xy]
  have hdivisor : divisor.polynomial = AddMonoidAlgebra.single (TermSum.xy 1 1) 1 := by
    rw [TermSum.polynomial_ofMonomials (by simp)]
    simp [TermSum.xy]
  have hnonzero : ¬ divisor.polynomial.IsNegligible := by
    rw [hdivisor]
    rintro ⟨c, -, hc⟩
    have hcoeff : (AddMonoidAlgebra.single 0 c : Laurent ℚ).coeff (TermSum.xy 1 1) ≠ 0 := by
      rw [← hc, AddMonoidAlgebra.coeff_single, Finsupp.single_eq_same]
      exact one_ne_zero
    have hx := TermSum.xy_apply_x (1 : ℚ) 1
    rw [Laurent.eq_of_coeff_single_ne_zero hcoeff] at hx
    exact zero_ne_one hx
  -- the quotient is `x + 1`
  have hquotient : divisor.polynomial.NearlyDivides dividend.polynomial := by
    have hnatural : Laurent.IsNatural (TermSum.xy 1 0 : String →₀ ℚ) := by
      simpa using TermSum.isNatural_xy 1 0
    refine ⟨AddMonoidAlgebra.single (TermSum.xy 1 0) 1 + AddMonoidAlgebra.single 0 1, 0,
      (Laurent.isPolynomial_single hnatural 1).add
        (Laurent.isPolynomial_single Laurent.isNatural_zero 1),
      (Laurent.termCount_add_le _ _).trans ?_, Laurent.isNegligible_zero, ?_⟩
    · refine (Nat.add_le_add (Laurent.termCount_single_le _ _)
        (Laurent.termCount_single_le _ _)).trans ?_
      decide
    · rw [hdividend, hdivisor, add_mul, AddMonoidAlgebra.single_mul_single,
        AddMonoidAlgebra.single_mul_single, TermSum.xy_add, zero_add, add_zero]
      norm_num
  exact ⟨hb, (trySimplify_divide_divisibility hb).2.2.1 ⟨_, rfl⟩ hnonzero hquotient⟩

/-- **Success and divisibility are not the same.**  Division can fail though the divisor divides
the dividend: because it does not end, because the quotient has too many terms, or because the
divisor counts as zero.  And it can succeed though the divisor does not divide the dividend:
because the dividend counts as zero, or because the quotient has a negative exponent. -/
theorem trySimplify_divide_not_iff_divides :
    let quotient := fun dividend divisor : TermSum ℚ =>
      (Expr.binary .divide (.sum dividend) (.sum divisor)).trySimplify
    let x : TermSum ℚ := TermSum.ofMonomials [(1, [("x", 1)])]
    let xy : TermSum ℚ := TermSum.ofMonomials [(1, [("x", 1), ("y", 1)])]
    let tiny : TermSum ℚ := TermSum.ofMonomials [(1 / 10000000, [])]
    let product : TermSum ℚ :=
      TermSum.ofMonomials [(1, [("x", 2), ("y", 2)]), (-1, [("y", 3)])]
    let factor : TermSum ℚ := TermSum.ofMonomials [(1, [("x", 2)]), (-1, [("y", 1)])]
    let power : TermSum ℚ := TermSum.ofMonomials [(1, [("x", 1001)]), (-1, [])]
    let line : TermSum ℚ := TermSum.ofMonomials [(1, [("x", 1)]), (-1, [])]
    (∀ terms ∈ [x, xy, tiny, product, factor, power, line],
      terms.IsPolynomial ∧ terms.polynomial ≠ 0) ∧
    (quotient product factor = none ∧ factor.polynomial.Divides product.polynomial) ∧
    (quotient power line = none ∧ line.polynomial.Divides power.polynomial) ∧
    (quotient x tiny = none ∧ tiny.polynomial.Divides x.polynomial) ∧
    ((quotient tiny x).isSome = true ∧ ¬ x.polynomial.Divides tiny.polynomial) ∧
    ((quotient x xy).isSome = true ∧ ¬ xy.polynomial.Divides x.polynomial) := by
  intro quotient x xy tiny product factor power line
  have hx : x.polynomial = AddMonoidAlgebra.single (Finsupp.single "x" 1) 1 := by
    rw [TermSum.polynomial_ofMonomials (by simp)]
    simp
  have hxy : xy.polynomial = AddMonoidAlgebra.single (TermSum.xy 1 1) 1 := by
    rw [TermSum.polynomial_ofMonomials (by simp)]
    simp [TermSum.xy]
  have htiny : tiny.polynomial = AddMonoidAlgebra.single 0 (1 / 10000000) := by
    rw [TermSum.polynomial_ofMonomials (by simp)]
    simp
  have hproduct : product.polynomial = AddMonoidAlgebra.single (TermSum.xy 2 2) 1
      + AddMonoidAlgebra.single (TermSum.xy 0 3) (-1) := by
    rw [TermSum.polynomial_ofMonomials (by simp)]
    simp [TermSum.xy]
  have hfactor : factor.polynomial = AddMonoidAlgebra.single (TermSum.xy 2 0) 1
      + AddMonoidAlgebra.single (TermSum.xy 0 1) (-1) := by
    rw [TermSum.polynomial_ofMonomials (by simp)]
    simp [TermSum.xy]
  have hpower : power.polynomial = Laurent.ofUnivariate "x" (X ^ 1001 - 1) := by
    rw [TermSum.polynomial_ofMonomials (by simp), map_sub, ← monomial_one_right_eq_X_pow,
      Laurent.ofUnivariate_monomial, ← C_1, Laurent.ofUnivariate_C, Laurent.powerOf_apply]
    simp [sub_eq_add_neg]
  have hline : line.polynomial = Laurent.ofUnivariate "x" (X - 1) := by
    rw [TermSum.polynomial_ofMonomials (by simp), map_sub, ← monomial_one_one_eq_X,
      Laurent.ofUnivariate_monomial, ← C_1, Laurent.ofUnivariate_C, Laurent.powerOf_apply]
    simp [sub_eq_add_neg]
  have hdomain : ∀ terms ∈ [x, xy, tiny, product, factor, power, line],
      terms.IsPolynomial ∧ terms.polynomial ≠ 0 := by
    simp only [List.forall_mem_cons]
    refine ⟨?_, ?_, ?_, ?_, ?_, ?_, ?_, List.forall_mem_nil _⟩ <;>
      refine TermSum.isPolynomial_ofMonomials (List.cons_ne_nil _ _) ?_ ?_ <;> decide +kernel
  refine ⟨hdomain, ⟨?_, ?_⟩, ⟨?_, ?_⟩, ⟨?_, ?_⟩, ⟨?_, ?_⟩, ⟨?_, ?_⟩⟩
  · exact trySimplify_divide_of_stepLimit (TermSum.divide_endless
      ((TermSum.polynomial_reduce product).trans hproduct)
      ((TermSum.polynomial_reduce factor).trans hfactor))
  · rw [hproduct, hfactor]
    exact TermSum.divides_endless
  · exact trySimplify_divide_of_stepLimit (TermSum.divide_geometric
      (by norm_num [TermSum.divisionSteps])
      ((TermSum.polynomial_reduce power).trans hpower)
      ((TermSum.polynomial_reduce line).trans hline))
  · rw [hpower, hline]
    exact Laurent.divides_geometric "x" 1001
  · exact Option.isNone_iff_eq_none.mp (by decide +kernel)
  · refine ⟨AddMonoidAlgebra.single (Finsupp.single "x" (1 : ℕ)) 10000000,
      Laurent.isPolynomial_single (Laurent.isNatural_single "x" 1) _, ?_⟩
    rw [hx, htiny, AddMonoidAlgebra.single_mul_single, add_zero, Nat.cast_one]
    norm_num
  · decide +kernel
  · rw [hx, htiny]
    intro hdivides
    have hnonneg := (hdivides.isNatural_sub (by norm_num)).nonneg "x"
    norm_num at hnonneg
  · decide +kernel
  · rw [hx, hxy]
    intro hdivides
    have hnonneg := (hdivides.isNatural_sub one_ne_zero).nonneg "y"
    rw [Finsupp.sub_apply, TermSum.xy_apply_y, Finsupp.single_eq_of_ne (by decide)] at hnonneg
    norm_num at hnonneg

end Expr

end PolyAlgebra
