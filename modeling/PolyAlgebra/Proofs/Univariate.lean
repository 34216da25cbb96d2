/-
Sums in one variable.

A sum whose terms mention a single variable, with natural numbers for exponents, stands for a
polynomial in that variable.  The library's polynomials are embedded in the formal Laurent
polynomials (`Laurent.ofUnivariate`), and the sum stands for the image of one of them
(`Univariate.ofUnivariate_toUnivariate`), of which it shows the degree and, if it is reduced,
the leading term first.

In one variable the canonical order has no ties: distinct terms have distinct degrees.  So a
polynomial has only one reduced sum, and `TermSum.ofUnivariate` writes it down.  Where the
variable is bound, a sum has the values of its polynomial (`Univariate.value_eq`).
-/
import Mathlib
import PolyAlgebra.Proofs.LongDivision
import PolyAlgebra.Proofs.Values

namespace PolyAlgebra

open Polynomial

/-! ### Polynomials in one variable -/

namespace Laurent

variable {K : Type} [Field K]

/-- The powers of a variable as monomials. -/
noncomputable def powerOf (name : String) : ℕ →+ (String →₀ K) :=
  (Finsupp.singleAddHom name).comp (Nat.castAddMonoidHom K)

theorem powerOf_apply (name : String) (n : ℕ) :
    (powerOf name n : String →₀ K) = Finsupp.single name (n : K) := rfl

theorem powerOf_injective [CharZero K] (name : String) :
    Function.Injective (powerOf name : ℕ → String →₀ K) :=
  (Finsupp.single_injective name).comp Nat.cast_injective

/-- A polynomial in one variable. -/
noncomputable def ofUnivariate (name : String) : K[X] →+* Laurent K :=
  (AddMonoidAlgebra.mapDomainRingHom K (powerOf name)).comp (toFinsuppIso K).toRingHom

theorem ofUnivariate_monomial (name : String) (n : ℕ) (c : K) :
    ofUnivariate name (monomial n c) = AddMonoidAlgebra.single (powerOf name n) c := by
  show AddMonoidAlgebra.mapDomain (powerOf name) (monomial n c).toFinsupp = _
  rw [toFinsupp_monomial, AddMonoidAlgebra.mapDomain_single]

theorem ofUnivariate_C (name : String) (c : K) :
    ofUnivariate name (C c) = AddMonoidAlgebra.single 0 c := by
  rw [← monomial_zero_left, ofUnivariate_monomial, map_zero]

theorem coeff_ofUnivariate (name : String) (p : K[X]) :
    (ofUnivariate name p).coeff = Finsupp.mapDomain (powerOf name) p.toFinsupp.coeff := by
  show (AddMonoidAlgebra.mapDomain (powerOf name) p.toFinsupp).coeff = _
  rw [AddMonoidAlgebra.coeff_mapDomain]

theorem exists_of_coeff_ofUnivariate_ne_zero {name : String} {p : K[X]} {m : String →₀ K}
    (h : (ofUnivariate name p).coeff m ≠ 0) : ∃ n, powerOf name n = m := by
  by_contra hnone
  rw [coeff_ofUnivariate] at h
  exact h (Finsupp.mapDomain_of_notMem_range _ _ hnone)

/-- Every polynomial in powers of a variable is one. -/
theorem exists_eq_ofUnivariate [CharZero K] {name : String} {q : Laurent K}
    (h : ∀ m, q.coeff m ≠ 0 → ∃ n, powerOf name n = m) : ∃ p, q = ofUnivariate name p := by
  have hinjective := powerOf_injective (K := K) name
  refine ⟨(toFinsuppIso K).symm ⟨q.coeff.comapDomain (powerOf name) hinjective.injOn⟩,
    AddMonoidAlgebra.ext ?_⟩
  rw [coeff_ofUnivariate]
  refine (Finsupp.mapDomain_comapDomain _ hinjective _ fun m hm => ?_).symm
  exact h m (Finsupp.mem_support_iff.mp hm)

section CharZero

variable [CharZero K]

theorem coeff_ofUnivariate_powerOf (name : String) (p : K[X]) (n : ℕ) :
    (ofUnivariate name p).coeff (powerOf name n) = p.coeff n := by
  rw [coeff_ofUnivariate, Finsupp.mapDomain_apply (powerOf_injective name)]
  rfl

theorem ofUnivariate_injective (name : String) :
    Function.Injective (ofUnivariate name : K[X] → Laurent K) :=
  (AddMonoidAlgebra.mapDomain_injective (powerOf_injective name)).comp
    (toFinsuppIso K).injective

theorem erase_ofUnivariate (name : String) (p : K[X]) (n : ℕ) :
    (ofUnivariate name p).erase (powerOf name n) = ofUnivariate name (p.erase n) := by
  have hsplit := congrArg (ofUnivariate name) (monomial_add_erase p n)
  rw [map_add, ofUnivariate_monomial, ← coeff_ofUnivariate_powerOf name] at hsplit
  exact add_left_cancel ((AddMonoidAlgebra.single_add_erase _ _).trans hsplit.symm)

theorem termCount_ofUnivariate (name : String) (p : K[X]) :
    (ofUnivariate name p).termCount = p.support.card := by
  classical
  rw [termCount, coeff_ofUnivariate, Finsupp.mapDomain_support_of_injective
    (powerOf_injective name), Finset.card_image_of_injective _ (powerOf_injective name),
    support_toFinsupp]

end CharZero

variable [LinearOrder K] [IsStrictOrderedRing K]

theorem isNegligible_ofUnivariate_iff (name : String) (p : K[X]) :
    (ofUnivariate name p).IsNegligible ↔ ∃ c, p = C c ∧ |c| < 1 / 1000000 := by
  constructor
  · rintro ⟨c, hc, heq⟩
    rw [← ofUnivariate_C name] at heq
    exact ⟨c, ofUnivariate_injective name heq, hc⟩
  · rintro ⟨c, rfl, hc⟩
    exact ⟨c, hc, ofUnivariate_C name c⟩

end Laurent

variable {K : Type} [Field K] [LinearOrder K] [FloorRing K] [Unsettled K]
  [IsStrictOrderedRing K]

omit [IsStrictOrderedRing K] in
/-- A coefficient and a power as a polynomial. -/
theorem Term.polynomial_ofPower (name : String) (n : ℕ) (c : K) :
    (ofPowers c [(name, (n : K))]).polynomial
      = Laurent.ofUnivariate name (Polynomial.monomial n c) := by
  rw [Laurent.ofUnivariate_monomial, polynomial_ofPowers _ (by simp), List.map_singleton,
    List.sum_singleton, Laurent.powerOf_apply]

namespace TermSum

/-! ### Degrees and leading terms -/

/-- The term that a polynomial in one variable starts with is its leading term. -/
theorem Starts.eq_leading {name : String} {p : K[X]} {t : Term K}
    (h : Starts t (Laurent.ofUnivariate name p)) :
    t.monomial = Laurent.powerOf name p.natDegree ∧ t.coefficient = p.leadingCoeff := by
  have hcoeff := h.coeff_eq
  obtain ⟨n, hn⟩ := Laurent.exists_of_coeff_ofUnivariate_ne_zero (hcoeff ▸ h.nonzero)
  rw [← hn, Laurent.coeff_ofUnivariate_powerOf] at hcoeff
  have hp : p ≠ 0 := by
    rintro rfl
    exact h.nonzero hcoeff.symm
  have hle : p.natDegree ≤ n := by
    have := h.degree_le (Laurent.powerOf name p.natDegree) (by
      rw [Laurent.coeff_ofUnivariate_powerOf]
      exact leadingCoeff_ne_zero.mpr hp)
    rw [← hn, Laurent.powerOf_apply, Laurent.powerOf_apply, Laurent.degreeOf_single,
      Laurent.degreeOf_single] at this
    exact Nat.cast_le.mp this
  have hge : n ≤ p.natDegree := le_natDegree_of_ne_zero (hcoeff ▸ h.nonzero)
  obtain rfl := le_antisymm hge hle
  exact ⟨hn.symm, hcoeff.symm⟩

/-- **A reduced sum in one variable starts with the leading term of the polynomial.** -/
theorem Reduced.eq_cons_leading {terms : TermSum K} (h : Reduced terms) {name : String} {p : K[X]}
    (hp : polynomial terms = Laurent.ofUnivariate name p) (hzero : p ≠ 0) :
    ∃ first rest, terms = first :: rest ∧ first.monomial = Laurent.powerOf name p.natDegree ∧
      first.coefficient = p.leadingCoeff ∧ degree terms = p.natDegree := by
  have hne : polynomial terms ≠ 0 := by
    rwa [hp, ne_eq, map_eq_zero_iff _ (Laurent.ofUnivariate_injective name)]
  obtain ⟨first, rest, hcons, hstarts, hdegree⟩ := h.starts hne
  rw [hp] at hstarts
  obtain ⟨hmonomial, hcoefficient⟩ := hstarts.eq_leading
  refine ⟨first, rest, hcons, hmonomial, hcoefficient, ?_⟩
  rw [hdegree, hmonomial, Laurent.powerOf_apply, Laurent.degreeOf_single]

theorem Reduced.degree_eq_natDegree {terms : TermSum K} (h : Reduced terms) {name : String}
    {p : K[X]} (hp : polynomial terms = Laurent.ofUnivariate name p) :
    degree terms = p.natDegree := by
  by_cases hzero : p = 0
  · rw [hzero, map_zero] at hp
    rw [h.canonical.eq_zero hp, degree_zero, hzero, natDegree_zero, Nat.cast_zero]
  · obtain ⟨-, -, -, -, -, hdegree⟩ := h.eq_cons_leading hp hzero
    exact hdegree

theorem Canonical.degree_eq_natDegree {terms : TermSum K} (h : Canonical terms) {name : String}
    {p : K[X]} (hp : polynomial terms = Laurent.ofUnivariate name p) :
    degree terms = p.natDegree := by
  have hreduced := reduced_reduce terms
  rw [← polynomial_reduce] at hp
  rw [← hreduced.degree_eq_natDegree hp]
  exact degree_perm (h.perm_of_polynomial_eq hreduced.canonical (polynomial_reduce terms).symm)

/-! ### The reduced sum of a polynomial -/

omit [IsStrictOrderedRing K] in
/-- **In one variable a polynomial has only one reduced sum.** -/
theorem Reduced.eq_of_polynomial_eq {left right : TermSum K} (hl : Reduced left)
    (hr : Reduced right) {name : String} {p : K[X]}
    (hp : polynomial left = Laurent.ofUnivariate name p)
    (hq : polynomial right = Laurent.ofUnivariate name p) : left = right := by
  have hperm := hl.canonical.perm_of_polynomial_eq hr.canonical (hp.trans hq.symm)
  by_cases hzero : polynomial left = 0
  · rw [hl.canonical.eq_zero hzero, hr.canonical.eq_zero ((hq.trans hp.symm).trans hzero)]
  · -- terms that stand before each other have the same degree, and so the same power
    refine hperm.eq_of_pairwise (fun t u ht hu htu hut => ?_) hl.inOrder hr.inOrder
    have hu := hperm.mem_iff.mpr hu
    have hpower : ∀ v ∈ left, ∃ n : ℕ, Laurent.powerOf name n = v.monomial ∧ v.degree = n := by
      intro v hv
      have hcoeff := coeff_eq_coefficient hl.canonical.monomial_ne hv
      rw [hp] at hcoeff
      obtain ⟨n, hn⟩ := Laurent.exists_of_coeff_ofUnivariate_ne_zero
        (hcoeff ▸ hl.canonical.coefficient_ne_zero hzero hv)
      refine ⟨n, hn, ?_⟩
      rw [Term.degree_eq, ← hn, Laurent.powerOf_apply, Laurent.degreeOf_single]
    obtain ⟨n, hn, hdegree⟩ := hpower t ht
    obtain ⟨k, hk, hdegree'⟩ := hpower u hu
    have hdegrees := le_antisymm (Term.degree_le_of_canonicalOrder hut)
      (Term.degree_le_of_canonicalOrder htu)
    rw [hdegree, hdegree', Nat.cast_inj] at hdegrees
    exact hl.canonical.eq_of_monomial_eq ht hu (by rw [← hn, ← hk, hdegrees])

/-- The reduced sum of a polynomial. -/
noncomputable def ofUnivariate (name : String) (p : K[X]) : TermSum K :=
  reduce (p.support.toList.map fun n => Term.ofPowers (p.coeff n) [(name, (n : K))])

omit [IsStrictOrderedRing K] in
theorem reduced_ofUnivariate (name : String) (p : K[X]) : Reduced (ofUnivariate name p) :=
  reduced_reduce _

omit [IsStrictOrderedRing K] in
theorem polynomial_ofUnivariate (name : String) (p : K[X]) :
    polynomial (ofUnivariate name p) = Laurent.ofUnivariate name p := by
  rw [ofUnivariate, polynomial_reduce, polynomial, List.map_map]
  conv_rhs => rw [as_sum_support p, map_sum, ← Finset.sum_map_toList]
  refine congrArg List.sum (List.map_congr_left fun n _ => ?_)
  exact Term.polynomial_ofPower name n (p.coeff n)

/-! ### Sums in one variable -/

/-- The terms mention no other variable, and the exponents are natural numbers. -/
def Univariate (name : String) (terms : TermSum K) : Prop :=
  ∀ t ∈ terms, ∀ other exponent, t.powers.get? other = some exponent →
    other = name ∧ ∃ n : ℕ, exponent = n

/-- The polynomial that a sum in one variable stands for. -/
noncomputable def toUnivariate (name : String) (terms : TermSum K) : K[X] :=
  (terms.map fun t => monomial ⌊t.exponent name⌋₊ t.coefficient).sum

theorem Univariate.monomial_eq {name : String} {terms : TermSum K} (h : Univariate name terms)
    {t : Term K} (ht : t ∈ terms) : t.monomial = Laurent.powerOf name ⌊t.exponent name⌋₊ := by
  refine Finsupp.ext fun other => ?_
  have hother := h t ht other
  rw [Laurent.powerOf_apply, Finsupp.single_apply, Term.monomial, NameMap.toFinsupp_apply,
    Term.exponent]
  split
  · rename_i hname
    subst hname
    cases hget : t.powers.get? name with
    | none => simp
    | some exponent =>
      obtain ⟨-, n, rfl⟩ := hother exponent hget
      simp
  · rename_i hname
    cases hget : t.powers.get? other with
    | none => rfl
    | some exponent => exact absurd (hother exponent hget).1.symm hname

theorem Univariate.ofUnivariate_toUnivariate {name : String} {terms : TermSum K}
    (h : Univariate name terms) :
    Laurent.ofUnivariate name (toUnivariate name terms) = polynomial terms := by
  rw [toUnivariate, map_list_sum, List.map_map, polynomial]
  refine congrArg List.sum (List.map_congr_left fun t ht => ?_)
  rw [Function.comp_apply, Laurent.ofUnivariate_monomial, Term.polynomial, h.monomial_eq ht]

omit [IsStrictOrderedRing K] in
/-- A canonical sum for a polynomial in one variable is one in that variable. -/
theorem Canonical.univariate {terms : TermSum K} (h : Canonical terms) {name : String}
    {p : K[X]} (hp : polynomial terms = Laurent.ofUnivariate name p) : Univariate name terms := by
  intro t ht other exponent hget
  have hexponent : t.monomial other = exponent := by simp [Term.monomial, hget]
  have hne : exponent ≠ 0 := by
    simpa using t.normalised.exponents other exponent hget
  have hnonzero : t.coefficient ≠ 0 := by
    rcases h.zeroAlone with rfl | ⟨-, hall⟩
    · rw [List.mem_singleton.mp ht] at hget
      cases hget
    · exact (Term.isZero_eq_false_iff t).mp (hall t ht)
  have hcoeff := coeff_eq_coefficient h.monomial_ne ht
  rw [hp] at hcoeff
  obtain ⟨n, hn⟩ := Laurent.exists_of_coeff_ofUnivariate_ne_zero (hcoeff ▸ hnonzero)
  rw [← hn, Laurent.powerOf_apply, Finsupp.single_apply] at hexponent
  split at hexponent
  · rename_i hname
    exact ⟨hname.symm, n, hexponent.symm⟩
  · exact absurd hexponent.symm hne

theorem Canonical.toUnivariate_eq {terms : TermSum K} (h : Canonical terms) {name : String}
    {p : K[X]} (hp : polynomial terms = Laurent.ofUnivariate name p) :
    toUnivariate name terms = p :=
  Laurent.ofUnivariate_injective name ((h.univariate hp).ofUnivariate_toUnivariate.trans hp)

omit [IsStrictOrderedRing K] in
/-- The reduced sum of a polynomial is one in the variable, and the polynomial can be read back
from it. -/
theorem univariate_ofUnivariate (name : String) (p : K[X]) :
    Univariate name (ofUnivariate name p) :=
  (reduced_ofUnivariate name p).canonical.univariate (polynomial_ofUnivariate name p)

@[simp] theorem toUnivariate_ofUnivariate (name : String) (p : K[X]) :
    toUnivariate name (ofUnivariate name p) = p :=
  (reduced_ofUnivariate name p).canonical.toUnivariate_eq (polynomial_ofUnivariate name p)

/-- No power is above the degree. -/
theorem Univariate.degree_toUnivariate_lt {name : String} {terms : TermSum K}
    (h : Univariate name terms) {n : ℕ} (hdegree : degree terms < n) :
    (toUnivariate name terms).degree < n := by
  rw [← mem_degreeLT, toUnivariate]
  refine list_sum_mem fun q hq => ?_
  obtain ⟨t, ht, rfl⟩ := List.mem_map.mp hq
  have hle : (⌊t.exponent name⌋₊ : K) ≤ degree terms := by
    rw [← Laurent.degreeOf_single name (⌊t.exponent name⌋₊ : K), ← Laurent.powerOf_apply,
      ← h.monomial_eq ht, ← Term.degree_eq]
    exact (isGreatest_degree (List.ne_nil_of_mem ht)).2 ⟨t, ht, rfl⟩
  have hlt : ⌊t.exponent name⌋₊ < n := Nat.cast_lt.mp (hle.trans_lt hdegree)
  exact mem_degreeLT.mpr ((degree_monomial_le _ _).trans_lt (Nat.cast_lt.mpr hlt))

end TermSum

/-! ### Values -/

/-- Where the variable is bound, the value is that of the polynomial. -/
theorem Laurent.valueAt_ofUnivariate {b : Bindings K} {name : String} {x : K}
    (hx : b name = some x) (p : K[X]) : valueAt b (ofUnivariate name p) = p.eval x := by
  induction p using Polynomial.induction_on' with
  | add p q hp hq => rw [map_add, map_add, hp, hq, eval_add]
  | monomial n c =>
    have hpower : monomialValue b (powerOf name n) = x ^ n := by
      rw [powerOf_apply, monomialValue, Finsupp.prod_single_index (Exact.pow_zero_exponent _),
        Bindings.number, hx, ← Int.cast_natCast, Exact.pow_intCast, zpow_natCast]
      rfl
    rw [ofUnivariate_monomial, valueAt_single, hpower, eval_monomial]

namespace TermSum

omit [IsStrictOrderedRing K] in
theorem Univariate.bound {name : String} {terms : TermSum K} (h : Univariate name terms)
    {b : Bindings K} {x : K} (hx : b name = some x) : ∀ t ∈ terms, t.Bound b := by
  intro t ht other exponent hget
  rw [(h t ht other exponent hget).1]
  exact ⟨x, hx⟩

/-- **A sum in one variable has the values of its polynomial.** -/
theorem Univariate.value_eq {name : String} {terms : TermSum K} (h : Univariate name terms)
    {b : Bindings K} {x : K} (hx : b name = some x) :
    value terms b = .ok ((toUnivariate name terms).eval x) := by
  rw [TermSum.value_eq (h.bound hx), ← h.ofUnivariate_toUnivariate,
    Laurent.valueAt_ofUnivariate hx]

theorem value_ofUnivariate {b : Bindings K} {name : String} {x : K} (hx : b name = some x)
    (p : K[X]) : value (ofUnivariate name p) b = .ok (p.eval x) := by
  rw [(univariate_ofUnivariate name p).value_eq hx, toUnivariate_ofUnivariate]

end TermSum

end PolyAlgebra
