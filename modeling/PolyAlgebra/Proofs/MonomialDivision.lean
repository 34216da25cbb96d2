/-
Natural exponents, and division by a single term.

Taking a multiple of a single term off a sum removes one of its terms and changes nothing else.
So division by a single term takes the terms of the dividend one by one, from the first, as long
as the degree allows it.  With natural exponents it never runs into a term that the divisor does
not divide before it has found the whole quotient: the terms of a multiple of the divisor have
at least the degree of the divisor, and a constant that is left over comes last.

A constant divisor is the one case where the constant left over could be divided too.  It is, if
it does not count as zero together with the constant of the multiple.
-/
import Mathlib
import PolyAlgebra.Proofs.LongDivision

namespace PolyAlgebra

/-! ### Natural exponents -/

namespace Laurent

/-- All exponents are natural numbers. -/
def IsNatural {K : Type} [Field K] (m : String →₀ K) : Prop := ∀ name, ∃ n : ℕ, m name = n

/-- All exponents of all terms are natural numbers. -/
def IsPolynomial {K : Type} [Field K] (p : Laurent K) : Prop :=
  ∀ m, p.coeff m ≠ 0 → IsNatural m

variable {K : Type} [Field K]

theorem isNatural_zero : IsNatural (0 : String →₀ K) := fun _ => ⟨0, by simp⟩

theorem isNatural_single (name : String) (n : ℕ) :
    IsNatural (Finsupp.single name (n : K)) := by
  intro other
  rw [Finsupp.single_apply]
  split
  · exact ⟨n, rfl⟩
  · exact ⟨0, by simp⟩

theorem IsNatural.add {m μ : String →₀ K} (hm : IsNatural m) (hμ : IsNatural μ) :
    IsNatural (m + μ) := by
  intro name
  obtain ⟨n, hn⟩ := hm name
  obtain ⟨k, hk⟩ := hμ name
  exact ⟨n + k, by rw [Finsupp.add_apply, hn, hk, Nat.cast_add]⟩

theorem eq_of_coeff_single_ne_zero {m μ : String →₀ K} {c : K}
    (h : (AddMonoidAlgebra.single m c : Laurent K).coeff μ ≠ 0) : μ = m := by
  rw [AddMonoidAlgebra.coeff_single] at h
  by_contra hne
  exact h (Finsupp.single_eq_of_ne hne)

theorem exists_coeff_ne_zero {p : Laurent K} (h : p ≠ 0) : ∃ m, p.coeff m ≠ 0 :=
  Finsupp.ne_iff.mp (AddMonoidAlgebra.coeff_eq_zero.not.mpr h)

theorem isPolynomial_single {m : String →₀ K} (hm : IsNatural m) (c : K) :
    IsPolynomial (AddMonoidAlgebra.single m c) := by
  intro μ hμ
  exact eq_of_coeff_single_ne_zero hμ ▸ hm

theorem IsPolynomial.add {p q : Laurent K} (hp : IsPolynomial p) (hq : IsPolynomial q) :
    IsPolynomial (p + q) := by
  intro m hm
  rw [AddMonoidAlgebra.coeff_add, Finsupp.add_apply] at hm
  by_cases h : p.coeff m = 0
  · rw [h, zero_add] at hm
    exact hq m hm
  · exact hp m h

theorem IsPolynomial.erase {p : Laurent K} (hp : IsPolynomial p) (m : String →₀ K) :
    IsPolynomial (p.erase m) := by
  intro μ hμ
  rw [AddMonoidAlgebra.coeff_erase] at hμ
  by_cases h : μ = m
  · rw [h, Finsupp.erase_same] at hμ
    exact absurd rfl hμ
  · rw [Finsupp.erase_ne h] at hμ
    exact hp μ hμ

section Ordered

variable [LinearOrder K] [IsStrictOrderedRing K]

theorem IsNatural.nonneg {m : String →₀ K} (hm : IsNatural m) (name : String) : 0 ≤ m name := by
  obtain ⟨n, hn⟩ := hm name
  rw [hn]
  exact Nat.cast_nonneg n

theorem IsNatural.apply_le_degreeOf {m : String →₀ K} (hm : IsNatural m) (name : String) :
    m name ≤ degreeOf m := by
  by_cases hzero : m = 0
  · rw [hzero, degreeOf_zero]
    exact le_rfl
  · obtain ⟨⟨other, hother, heq⟩, hupper⟩ := isGreatest_degreeOf hzero
    by_cases hname : m name = 0
    · rw [hname, ← heq]
      exact hm.nonneg other
    · exact hupper ⟨name, hname, rfl⟩

theorem IsNatural.degreeOf_pos {m : String →₀ K} (hm : IsNatural m) (hzero : m ≠ 0) :
    0 < degreeOf m := by
  obtain ⟨name, hname⟩ := Finsupp.ne_iff.mp hzero
  exact (lt_of_le_of_ne (hm.nonneg name) hname.symm).trans_le (hm.apply_le_degreeOf name)

/-- A multiple of a monomial has at least its degree. -/
theorem IsNatural.degreeOf_le_add {m μ : String →₀ K} (hm : IsNatural m) (hμ : IsNatural μ) :
    degreeOf μ ≤ degreeOf (m + μ) := by
  have hsum := hm.add hμ
  by_cases hzero : μ = 0
  · rw [hzero, degreeOf_zero, add_zero]
    exact (hm.nonneg "").trans (hm.apply_le_degreeOf "")
  · obtain ⟨name, -, heq⟩ := (isGreatest_degreeOf hzero).1
    refine le_trans ?_ (hsum.apply_le_degreeOf name)
    rw [← heq, Finsupp.add_apply]
    exact le_add_of_nonneg_left (hm.nonneg name)

end Ordered

/-! ### What is left over -/

section LeftOver

variable [LinearOrder K]

/-- A multiple of the divisor whose constant term cannot be taken for what is left over: it has
none, or it has one that does not count as zero and nothing is left over. -/
def Separates (p s : Laurent K) : Prop :=
  p.coeff 0 = 0 ∨ s = 0 ∧ ¬ IsNegligible (AddMonoidAlgebra.single 0 (p.coeff 0))

theorem Separates.not_isNegligible {p s : Laurent K} (h : Separates p s) (hp : p ≠ 0)
    (hs : s.IsNegligible) : ¬ (p + s).IsNegligible := by
  rintro ⟨d, hd, heq⟩
  obtain ⟨c, -, rfl⟩ := hs
  have hconstant : p = AddMonoidAlgebra.single 0 (d - c) := by
    rw [AddMonoidAlgebra.single_sub, ← heq, add_sub_cancel_right]
  have hcoeff : p.coeff 0 = d - c := by
    rw [hconstant, AddMonoidAlgebra.coeff_single, Finsupp.single_eq_same]
  rcases h with hzero | ⟨hc, hlarge⟩
  · rw [hcoeff] at hzero
    exact hp (by rw [hconstant, hzero, AddMonoidAlgebra.single_zero])
  · rw [AddMonoidAlgebra.single_eq_zero] at hc
    rw [hcoeff, hc, sub_zero] at hlarge
    exact hlarge ⟨d, hd, rfl⟩

/-- A multiple of a single term and what is left over can always be told apart like this, without
more terms in the quotient. -/
theorem exists_separates [IsStrictOrderedRing K] {q s : Laurent K} (μ : String →₀ K) {β : K}
    (hβ : β ≠ 0) (hq : q.IsPolynomial) (hs : s.IsNegligible) :
    ∃ q' s' : Laurent K, q'.IsPolynomial ∧ q'.termCount ≤ q.termCount ∧ s'.IsNegligible ∧
      (q' * AddMonoidAlgebra.single μ β).Separates s' ∧
      q' * AddMonoidAlgebra.single μ β + s' = q * AddMonoidAlgebra.single μ β + s := by
  obtain ⟨c, hc, rfl⟩ := hs
  by_cases hnear : IsNegligible (AddMonoidAlgebra.single 0 (q.coeff (-μ) * β + c) : Laurent K)
  · -- both constants together count as zero
    refine ⟨q.erase (-μ), AddMonoidAlgebra.single 0 (q.coeff (-μ) * β + c), hq.erase _,
      termCount_erase_le q _, hnear, Or.inl ?_, ?_⟩
    · rw [AddMonoidAlgebra.coeff_mul_single_apply, zero_add, AddMonoidAlgebra.coeff_erase,
        Finsupp.erase_same, zero_mul]
    · nth_rewrite 3 [← AddMonoidAlgebra.single_add_erase (-μ) q]
      rw [add_mul, AddMonoidAlgebra.single_mul_single, neg_add_cancel, AddMonoidAlgebra.single_add]
      ring
  · have hne : q.coeff (-μ) ≠ 0 := by
      intro hzero
      rw [hzero, zero_mul, zero_add] at hnear
      exact hnear ⟨c, hc, rfl⟩
    have hconstant : (q.coeff (-μ) + c / β) * β = q.coeff (-μ) * β + c := by
      rw [add_mul, div_mul_cancel₀ _ hβ]
    refine ⟨q + AddMonoidAlgebra.single (-μ) (c / β), 0,
      hq.add (isPolynomial_single (hq _ hne) _), termCount_add_single_le hne _,
      isNegligible_zero, Or.inr ⟨rfl, ?_⟩, ?_⟩
    · rw [AddMonoidAlgebra.coeff_mul_single_apply, zero_add, AddMonoidAlgebra.coeff_add,
        Finsupp.add_apply, AddMonoidAlgebra.coeff_single, Finsupp.single_eq_same, hconstant]
      exact hnear
    · rw [add_mul, AddMonoidAlgebra.single_mul_single, neg_add_cancel, div_mul_cancel₀ _ hβ,
        add_zero]

end LeftOver

end Laurent

variable {K : Type} [Field K] [LinearOrder K] [FloorRing K] [Unsettled K]
  [IsStrictOrderedRing K]

namespace TermSum

/-! ### Division by a single term -/

omit [IsStrictOrderedRing K] in
/-- A reduced sum for a single term is that term. -/
theorem Reduced.eq_single {terms rest : TermSum K} {first : Term K} (h : Reduced terms)
    (hfirst : terms = first :: rest) {μ : String →₀ K} {β : K} (hβ : β ≠ 0)
    (hp : polynomial terms = AddMonoidAlgebra.single μ β) :
    first.monomial = μ ∧ first.coefficient = β ∧ degree terms = Laurent.degreeOf μ := by
  have hne : polynomial terms ≠ 0 := by
    rw [hp, ne_eq, AddMonoidAlgebra.single_eq_zero]
    exact hβ
  obtain ⟨t, others, heq, hstarts, hdegree⟩ := h.starts hne
  obtain ⟨rfl, -⟩ := List.cons.inj (hfirst.symm.trans heq)
  have hcoeff := hstarts.coeff_eq
  rw [hp] at hcoeff
  have hμ := Laurent.eq_of_coeff_single_ne_zero (hcoeff ▸ hstarts.nonzero)
  rw [hμ, AddMonoidAlgebra.coeff_single, Finsupp.single_eq_same] at hcoeff
  exact ⟨hμ, hcoeff.symm, hμ ▸ hdegree⟩

/-- The first term is one of the multiple, and nothing is left over there. -/
theorem coeff_eq_zero_of_separates {p s : Laurent K} (h : p.Separates s) (hp : p ≠ 0)
    (hnatural : p.IsPolynomial) (hs : s.IsNegligible) {t : Term K} (ht : Starts t (p + s)) :
    s.coeff t.monomial = 0 := by
  obtain ⟨c, -, rfl⟩ := hs
  rcases h with hzero | ⟨hc, -⟩
  · by_contra hne
    have hmonomial := Laurent.eq_of_coeff_single_ne_zero hne
    -- a term of the multiple would have a larger degree than the constant
    obtain ⟨m, hm⟩ := Laurent.exists_coeff_ne_zero hp
    have hm0 : m ≠ 0 := by
      rintro rfl
      exact hm hzero
    have hle := ht.degree_le m (by
      rw [AddMonoidAlgebra.coeff_add, Finsupp.add_apply, AddMonoidAlgebra.coeff_single,
        Finsupp.single_eq_of_ne hm0, add_zero]
      exact hm)
    rw [hmonomial, Laurent.degreeOf_zero] at hle
    exact not_lt.mpr hle ((hnatural m hm).degreeOf_pos hm0)
  · rw [hc]
    rfl

/-- **Division by a single term peels.** -/
theorem peels_single {divisor rest : TermSum K} {leading : Term K} (hr : Reduced divisor)
    (hfirst : divisor = leading :: rest) {μ : String →₀ K} {β : K} (hβ : β ≠ 0)
    (hμ : Laurent.IsNatural μ) (hb : polynomial divisor = AddMonoidAlgebra.single μ β)
    {s : Laurent K} (hs : s.IsNegligible) :
    Peels divisor leading s
      (fun q => q.IsPolynomial ∧ (q * polynomial divisor).Separates s) := by
  obtain ⟨hmonomial, hcoefficient, hdegree⟩ := hr.eq_single hfirst hβ hb
  have hcoeff : ∀ (q : Laurent K) f, (q * polynomial divisor).coeff f = q.coeff (f - μ) * β :=
    fun q f => by rw [hb, AddMonoidAlgebra.coeff_mul_single_apply, sub_eq_add_neg]
  refine ⟨fun remainder hremainder hp => ?_, ?_⟩
  · rw [← Bool.not_eq_true, isDivisible_eq_true_iff, hremainder.canonical.isZero_iff.mpr (hp ▸ hs)]
    simp
  · rintro q remainder ⟨hq, hseparates⟩ hqzero hremainder hp
    set p := q * polynomial divisor
    have hpcoeff : ∀ f, p.coeff f ≠ 0 → q.coeff (f - μ) ≠ 0 := fun f hf hzero =>
      hf (by rw [hcoeff, hzero, zero_mul])
    have hnatural : p.IsPolynomial := fun f hf => by
      rw [← sub_add_cancel f μ]
      exact (hq _ (hpcoeff f hf)).add hμ
    have hpzero : p ≠ 0 := by
      obtain ⟨m, hm⟩ := Laurent.exists_coeff_ne_zero hqzero
      intro h
      have := hcoeff q (m + μ)
      rw [add_sub_cancel_right, show q * polynomial divisor = 0 from h] at this
      exact mul_ne_zero hm hβ this.symm
    have hnonzero := hseparates.not_isNegligible hpzero hs
    rw [← hp] at hnonzero
    obtain ⟨first, others, rfl, hstarts, hfirstDegree⟩ := hremainder.starts fun h =>
      hnonzero (h ▸ Laurent.isNegligible_zero)
    rw [hp] at hstarts
    -- so the first term is that of the multiple
    have hfirstCoeff : p.coeff first.monomial = first.coefficient := by
      have := hstarts.coeff_eq
      rwa [AddMonoidAlgebra.coeff_add, Finsupp.add_apply,
        coeff_eq_zero_of_separates hseparates hpzero hnatural hs hstarts, add_zero] at this
    have hm := hpcoeff first.monomial (hfirstCoeff ▸ hstarts.nonzero)
    have hsum := sub_add_cancel first.monomial μ
    refine ⟨?_, first, others, first.monomial - μ, rfl, hm, ?_, ?_, hq.erase _, ?_⟩
    · rw [isDivisible_eq_true_iff, ← Bool.not_eq_true, hremainder.canonical.isZero_iff, hdegree,
        hfirstDegree, ← hsum]
      exact ⟨hnonzero, (hq _ hm).degreeOf_le_add hμ⟩
    · rw [hmonomial, hsum]
    · rw [hcoefficient, ← hcoeff, ← hfirstCoeff]
    · rw [Laurent.Separates, hcoeff, AddMonoidAlgebra.coeff_erase]
      by_cases hlast : 0 - μ = first.monomial - μ
      · rw [hlast, Finsupp.erase_same, zero_mul]
        exact Or.inl rfl
      · rw [Finsupp.erase_ne hlast, ← hcoeff]
        exact hseparates

/-- Division by a single term ends as if nothing or a constant below the tolerance were left over:
whatever is left over may have to be divided with the rest. -/
theorem exists_ends_single {dividend divisor : TermSum K} {μ : String →₀ K} {β : K}
    (hμ : Laurent.IsNatural μ)
    (hb : polynomial divisor = AddMonoidAlgebra.single μ β)
    (hnonzero : ¬ (polynomial divisor).IsNegligible) {q s : Laurent K} (hq : q.IsPolynomial)
    (hs : s.IsNegligible) (ha : polynomial dividend = q * polynomial divisor + s) :
    ∃ q' s' : Laurent K, q'.termCount ≤ q.termCount ∧ s'.IsNegligible ∧
      Ends (divide dividend divisor) divisionSteps q' s' := by
  have hβ : β ≠ 0 := by
    rintro rfl
    rw [hb, AddMonoidAlgebra.single_zero] at hnonzero
    exact hnonzero Laurent.isNegligible_zero
  obtain ⟨q', s', hq', hcount, hs', hseparates, heq⟩ := Laurent.exists_separates μ hβ hq hs
  rw [← hb] at hseparates heq
  have hends := divide_of_peels hnonzero (fun leading rest hfirst =>
    peels_single (reduced_reduce divisor) hfirst hβ hμ ((polynomial_reduce divisor).trans hb) hs')
    ⟨hq', (polynomial_reduce divisor).symm ▸ hseparates⟩ (ha.trans heq.symm)
  exact ⟨q', s', hcount, hs', hends⟩

/-- **Division by a single term finds every quotient**, up to a constant below the tolerance. -/
theorem divide_single {dividend divisor : TermSum K} {μ : String →₀ K} {β : K}
    (hμ : Laurent.IsNatural μ)
    (hb : polynomial divisor = AddMonoidAlgebra.single μ β)
    (hnonzero : ¬ (polynomial divisor).IsNegligible) {q s : Laurent K} (hq : q.IsPolynomial)
    (hcount : q.termCount ≤ divisionSteps) (hs : s.IsNegligible)
    (ha : polynomial dividend = q * polynomial divisor + s) :
    ∃ quotient, divide dividend divisor = .ok quotient := by
  obtain ⟨q', s', hle, hs', hends⟩ := exists_ends_single hμ hb hnonzero hq hs ha
  obtain ⟨quotient, hquotient, -⟩ := hends.quotient (hle.trans hcount) hs'
  exact ⟨quotient, hquotient⟩

end TermSum

end PolyAlgebra
