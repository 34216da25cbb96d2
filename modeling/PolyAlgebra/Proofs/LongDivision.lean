/-
Long division.

Each step takes the multiple of the divisor that cancels the first term off the remainder, so
the remainder and the terms found so far, times the divisor, always add up to the dividend.
That alone makes a quotient right (`divide_sound`): a division that succeeds leaves a constant
below the tolerance and nothing else, whatever the exponents and however the degree moved.

How a division ends takes more.  Suppose the dividend is `q * divisor + s` and every step peels
one term off `q`.  Then the steps are as many as the terms of `q`, and after them `s` remains
and decides (`quotientTerms_of_peels`).  Which divisors peel is left to the modules that use it.
-/
import Mathlib
import PolyAlgebra.Proofs.Collapsing
import PolyAlgebra.Proofs.Tolerance

namespace PolyAlgebra

/-! ### Counting terms -/

namespace Laurent

variable {K : Type} [Field K]

/-- How many terms a polynomial has. -/
noncomputable def termCount (p : Laurent K) : Nat := p.coeff.support.card

@[simp] theorem termCount_zero : termCount (0 : Laurent K) = 0 := by simp [termCount]

theorem termCount_add_le (p q : Laurent K) :
    (p + q).termCount ≤ p.termCount + q.termCount := by
  classical
  exact (Finset.card_le_card Finsupp.support_add).trans (Finset.card_union_le _ _)

theorem termCount_single_le (m : String →₀ K) (c : K) :
    termCount (AddMonoidAlgebra.single m c) ≤ 1 :=
  (Finset.card_le_card Finsupp.support_single_subset).trans (Finset.card_singleton m).le

theorem termCount_pos {p : Laurent K} (h : p ≠ 0) : 0 < p.termCount :=
  Finset.card_pos.mpr (Finsupp.support_nonempty_iff.mpr (AddMonoidAlgebra.coeff_eq_zero.not.mpr h))

theorem termCount_erase {p : Laurent K} {m : String →₀ K} (h : p.coeff m ≠ 0) :
    termCount (p.erase m) + 1 = p.termCount := by
  classical
  rw [termCount, AddMonoidAlgebra.coeff_erase, Finsupp.support_erase]
  exact Finset.card_erase_add_one (Finsupp.mem_support_iff.mpr h)

theorem termCount_erase_le (p : Laurent K) (m : String →₀ K) :
    termCount (p.erase m) ≤ p.termCount := by
  classical
  rw [termCount, AddMonoidAlgebra.coeff_erase, Finsupp.support_erase]
  exact Finset.card_erase_le

/-- A term like one that is there adds none. -/
theorem termCount_add_single_le {p : Laurent K} {m : String →₀ K} (h : p.coeff m ≠ 0) (c : K) :
    termCount (p + AddMonoidAlgebra.single m c) ≤ p.termCount := by
  classical
  refine Finset.card_le_card (Finsupp.support_add.trans (Finset.union_subset le_rfl ?_))
  refine Finsupp.support_single_subset.trans (Finset.singleton_subset_iff.mpr ?_)
  exact Finsupp.mem_support_iff.mpr h

end Laurent

variable {K : Type} [Field K] [LinearOrder K] [FloorRing K] [Unsettled K]

/-! ### Dividing terms -/

namespace Term

/-- The exponents of a quotient are the differences of the exponents. -/
theorem toFinsupp_overlay_sub (p q : NameMap K) :
    (p.overlay (fun ours theirs => ours.getD 0 - theirs) q).toFinsupp
      = p.toFinsupp - q.toFinsupp := by
  ext name
  rw [Finsupp.sub_apply, NameMap.toFinsupp_apply, NameMap.toFinsupp_apply,
    NameMap.toFinsupp_apply, NameMap.get?_overlay]
  cases q.get? name with
  | none => simp
  | some value => simp

/-- A term can be divided by every term that is not zero. -/
theorem divide_eq_ok (t : Term K) {u : Term K} (hu : u.coefficient ≠ 0) :
    ∃ factor, t.divide u = .ok factor ∧ factor.polynomial
      = AddMonoidAlgebra.single (t.monomial - u.monomial) (t.coefficient / u.coefficient) := by
  have hzero : ¬ u.isZero = true := by rwa [isZero_iff]
  rw [divide, if_neg hzero]
  refine ⟨_, rfl, ?_⟩
  rw [polynomial_normalise, toFinsupp_overlay_sub]
  rfl

end Term

namespace TermSum

/-! ### One step -/

theorem polynomial_map_multiply_negate (divisor : TermSum K) (factor : Term K) :
    polynomial (divisor.map (fun t => (t.multiply factor).negate))
      = -(factor.polynomial * polynomial divisor) := by
  induction divisor with
  | nil => simp
  | cons t rest ih =>
    rw [List.map_cons, polynomial_cons, ih, Term.polynomial_negate, Term.polynomial_multiply,
      polynomial_cons]
    ring

/-- A step takes a multiple of the divisor off the remainder. -/
theorem polynomial_subtractMultiple (remainder divisor : TermSum K) (factor : Term K) :
    polynomial (subtractMultiple remainder divisor factor)
      = polynomial remainder - factor.polynomial * polynomial divisor := by
  rw [subtractMultiple, polynomial_reduce, polynomial_append, polynomial_map_multiply_negate,
    sub_eq_add_neg]

theorem reduced_subtractMultiple (remainder divisor : TermSum K) (factor : Term K) :
    Reduced (subtractMultiple remainder divisor factor) := reduced_reduce _

theorem isDivisible_eq_true_iff (remainder : TermSum K) (degree : K) :
    isDivisible remainder degree = true ↔
      remainder.isZero = false ∧ degree ≤ remainder.degree := by
  simp [isDivisible]

section Steps

variable {divisor : TermSum K} {leading : Term K} {remainder : TermSum K}

/-- Division stops when there is nothing left to divide. -/
theorem quotientTerms_of_not_isDivisible (steps : Nat)
    (h : isDivisible remainder divisor.degree = false) :
    quotientTerms divisor leading steps remainder
      = if remainder.isZero then .ok [] else .error .remainder := by
  rw [quotientTerms.eq_def, if_neg (by rw [h]; simp)]

theorem quotientTerms_of_isZero (steps : Nat) (h : remainder.isZero = true) :
    quotientTerms divisor leading steps remainder = .ok [] := by
  rw [quotientTerms_of_not_isDivisible steps (by simp [isDivisible, h]), if_pos h]

theorem eq_nil_of_not_isDivisible {steps : Nat} {quotient : TermSum K}
    (h : isDivisible remainder divisor.degree = false)
    (hok : quotientTerms divisor leading steps remainder = .ok quotient) :
    quotient = [] ∧ remainder.isZero = true := by
  rw [quotientTerms_of_not_isDivisible steps h] at hok
  split at hok
  · rename_i hzero
    exact ⟨(Except.ok.inj hok).symm, hzero⟩
  · cases hok

/-- Division gives up when there is something left to divide and no step left. -/
theorem quotientTerms_zero (h : isDivisible remainder divisor.degree = true) :
    quotientTerms divisor leading 0 remainder = .error .stepLimit := by
  rw [quotientTerms, if_pos h]

/-- Otherwise it divides the first term and goes on. -/
theorem quotientTerms_succ {steps : Nat} {first factor : Term K} {rest : TermSum K}
    (h : isDivisible (first :: rest) divisor.degree = true)
    (hfactor : first.divide leading = .ok factor) :
    quotientTerms divisor leading (steps + 1) (first :: rest)
      = (factor :: ·) <$> quotientTerms divisor leading steps
          (subtractMultiple (first :: rest) divisor factor) := by
  rw [quotientTerms, if_pos h, hfactor]

end Steps

/-! ### Endless divisions -/

/-- If every remainder of a sequence can be divided and leads to the next one, the steps run out,
however many there are. -/
theorem quotientTerms_of_endless {divisor : TermSum K} {leading : Term K}
    (hl : leading.coefficient ≠ 0) {r : ℕ → Laurent K}
    (h : ∀ k remainder, Reduced remainder → polynomial remainder = r k →
      isDivisible remainder divisor.degree = true ∧ ∃ first rest, remainder = first :: rest ∧
        r (k + 1) = r k - AddMonoidAlgebra.single (first.monomial - leading.monomial)
          (first.coefficient / leading.coefficient) * polynomial divisor) :
    ∀ (steps k : Nat) (remainder : TermSum K), Reduced remainder → polynomial remainder = r k →
      quotientTerms divisor leading steps remainder = .error .stepLimit := by
  intro steps
  induction steps with
  | zero =>
    intro k remainder hr heq
    exact quotientTerms_zero (h k remainder hr heq).1
  | succ steps ih =>
    intro k remainder hr heq
    obtain ⟨hdivisible, first, rest, rfl, hnext⟩ := h k remainder hr heq
    obtain ⟨factor, hfactor, hpolynomial⟩ := Term.divide_eq_ok first hl
    rw [quotientTerms_succ hdivisible hfactor,
      ih (k + 1) _ (reduced_subtractMultiple _ divisor factor)]
    · rfl
    · rw [polynomial_subtractMultiple, heq, hpolynomial, hnext]

/-! ### How a division ends -/

/-- Every step of dividing `q * divisor + s` peels a term off `q`, as long as `q` is one of the
polynomials in question, and division stops at `s`. -/
structure Peels (divisor : TermSum K) (leading : Term K) (s : Laurent K)
    (among : Laurent K → Prop) : Prop where
  stop : ∀ remainder, Reduced remainder → polynomial remainder = s →
    isDivisible remainder divisor.degree = false
  step : ∀ q remainder, among q → q ≠ 0 → Reduced remainder →
    polynomial remainder = q * polynomial divisor + s →
    isDivisible remainder divisor.degree = true ∧ ∃ first rest m, remainder = first :: rest ∧
      q.coeff m ≠ 0 ∧ first.monomial = m + leading.monomial ∧
      first.coefficient = q.coeff m * leading.coefficient ∧ among (q.erase m)

/-- How the division of `q * divisor + s` ends if every step peels a term off `q`. -/
structure Ends (outcome : Except (Obstacle K) (TermSum K)) (steps : Nat) (q s : Laurent K) :
    Prop where
  stepLimit : steps < q.termCount → outcome = .error .stepLimit
  remainder : q.termCount ≤ steps → ¬ s.IsNegligible →
    outcome = .error .lowDegree ∨ outcome = .error .remainder
  quotient : q.termCount ≤ steps → s.IsNegligible →
    ∃ terms, outcome = .ok terms ∧ polynomial terms = q

/-- Nothing has to be peeled off zero. -/
theorem Ends.of_zero {outcome : Except (Obstacle K) (TermSum K)} (steps : Nat) {s : Laurent K}
    (remainder : ¬ s.IsNegligible → outcome = .error .lowDegree ∨ outcome = .error .remainder)
    (quotient : s.IsNegligible → ∃ terms, outcome = .ok terms ∧ polynomial terms = 0) :
    Ends outcome steps 0 s := by
  refine ⟨fun hlt => ?_, fun _ => remainder, fun _ => quotient⟩
  rw [Laurent.termCount_zero] at hlt
  exact absurd hlt (Nat.not_lt_zero _)

theorem Ends.map {outcome : Except (Obstacle K) (TermSum K)} {steps steps' : Nat}
    {q q' s : Laurent K} (h : Ends outcome steps q s) {f : TermSum K → TermSum K}
    (hcount : q.termCount ≤ steps ↔ q'.termCount ≤ steps')
    (hf : ∀ terms, polynomial terms = q → polynomial (f terms) = q') :
    Ends (f <$> outcome) steps' q' s := by
  refine ⟨fun hlt => ?_, fun hle hs => ?_, fun hle hs => ?_⟩
  · rw [h.stepLimit (not_le.mp fun hle => not_le.mpr hlt (hcount.mp hle))]
    rfl
  · rcases h.remainder (hcount.mpr hle) hs with heq | heq
    · exact Or.inl (by rw [heq]; rfl)
    · exact Or.inr (by rw [heq]; rfl)
  · obtain ⟨terms, heq, hq⟩ := h.quotient (hcount.mpr hle) hs
    exact ⟨f terms, by rw [heq]; rfl, hf terms hq⟩

theorem Ends.of_ok {outcome : Except (Obstacle K) (TermSum K)} {steps : Nat} {q s : Laurent K}
    (h : Ends outcome steps q s) {terms : TermSum K} (hok : outcome = .ok terms) :
    q.termCount ≤ steps ∧ s.IsNegligible := by
  subst hok
  have hcount : q.termCount ≤ steps := by
    by_contra hlt
    cases h.stepLimit (not_le.mp hlt)
  refine ⟨hcount, ?_⟩
  by_contra hs
  rcases h.remainder hcount hs with heq | heq
  · cases heq
  · cases heq

theorem Ends.ne_stepLimit {outcome : Except (Obstacle K) (TermSum K)} {steps : Nat}
    {q s : Laurent K} (h : Ends outcome steps q s) (hcount : q.termCount ≤ steps) :
    outcome ≠ .error .stepLimit := by
  rintro rfl
  by_cases hs : s.IsNegligible
  · obtain ⟨terms, heq, -⟩ := h.quotient hcount hs
    cases heq
  · rcases h.remainder hcount hs with heq | heq
    · cases heq
    · cases heq

/-! ### The whole division -/

/-- What a division comes down to: the reduced dividend is divided by the first term of the
reduced divisor, unless one of them is zero or the degrees rule it out. -/
theorem divide_eq (dividend divisor : TermSum K) :
    ∃ leading rest, reduce divisor = leading :: rest ∧
      divide dividend divisor
        = if (reduce divisor).isZero then .error .zeroDivisor
          else if (reduce dividend).isZero then .ok [Term.zero]
          else if (reduce dividend).degree < (reduce divisor).degree then .error .lowDegree
          else reduce <$> quotientTerms (reduce divisor) leading divisionSteps
            (reduce dividend) := by
  cases h : reduce divisor with
  | nil => exact absurd h (reduce_ne_nil divisor)
  | cons leading rest => exact ⟨leading, rest, rfl, by rw [divide, h]⟩

/-- Nothing is done about a dividend that counts as zero. -/
theorem divide_of_isZero {dividend divisor : TermSum K} (hb : ¬ (reduce divisor).isZero = true)
    (h : (reduce dividend).isZero = true) : divide dividend divisor = .ok [Term.zero] := by
  obtain ⟨leading, rest, -, heq⟩ := divide_eq dividend divisor
  rw [heq, if_neg hb, if_pos h]

/-- A dividend that can be divided is divided. -/
theorem divide_of_isDivisible {dividend divisor rest : TermSum K} {leading : Term K}
    (hfirst : reduce divisor = leading :: rest) (hb : ¬ (reduce divisor).isZero = true)
    (h : isDivisible (reduce dividend) (reduce divisor).degree = true) :
    divide dividend divisor
      = reduce <$> quotientTerms (reduce divisor) leading divisionSteps (reduce dividend) := by
  obtain ⟨first, others, hcons, heq⟩ := divide_eq dividend divisor
  obtain ⟨rfl, -⟩ := List.cons.inj (hcons.symm.trans hfirst)
  obtain ⟨haz, hle⟩ := (isDivisible_eq_true_iff _ _).mp h
  rw [heq, if_neg hb, if_neg (by rw [haz]; simp), if_neg (not_lt.mpr hle)]

variable [IsStrictOrderedRing K]

theorem coefficient_ne_zero_of_not_isZero {divisor : TermSum K} (h : Canonical divisor)
    (hz : ¬ divisor.isZero = true) {t : Term K} (ht : t ∈ divisor) : t.coefficient ≠ 0 := by
  refine h.coefficient_ne_zero (fun hzero => hz ?_) ht
  rw [h.isZero_iff, hzero]
  exact Laurent.isNegligible_zero

/-! ### Quotients are right -/

/-- Whatever the steps are, the quotient times the divisor makes up for the remainder, up to a
constant below the tolerance. -/
theorem quotientTerms_sound {divisor : TermSum K} {leading : Term K}
    (hl : leading.coefficient ≠ 0) :
    ∀ (steps : Nat) (remainder quotient : TermSum K), Reduced remainder →
      quotientTerms divisor leading steps remainder = .ok quotient →
      quotient.length ≤ steps ∧
        (polynomial remainder - polynomial quotient * polynomial divisor).IsNegligible := by
  intro steps
  induction steps with
  | zero =>
    intro remainder quotient hr h
    cases hdivisible : isDivisible remainder divisor.degree with
    | true =>
      rw [quotientTerms_zero hdivisible] at h
      cases h
    | false =>
      obtain ⟨rfl, hzero⟩ := eq_nil_of_not_isDivisible hdivisible h
      exact ⟨le_rfl, by simpa using hr.canonical.isZero_iff.mp hzero⟩
  | succ steps ih =>
    intro remainder quotient hr h
    cases hdivisible : isDivisible remainder divisor.degree with
    | true =>
      cases remainder with
      | nil => exact absurd rfl hr.canonical.ne_nil
      | cons first rest =>
        obtain ⟨factor, hfactor, -⟩ := Term.divide_eq_ok first hl
        rw [quotientTerms_succ hdivisible hfactor] at h
        obtain ⟨others, hothers, rfl⟩ := map_eq_ok_iff.mp h
        obtain ⟨hlength, hnegligible⟩ :=
          ih _ others (reduced_subtractMultiple _ divisor factor) hothers
        rw [polynomial_subtractMultiple] at hnegligible
        refine ⟨Nat.succ_le_succ hlength, ?_⟩
        rw [polynomial_cons factor others, add_mul, ← sub_sub]
        exact hnegligible
    | false =>
      obtain ⟨rfl, hzero⟩ := eq_nil_of_not_isDivisible hdivisible h
      exact ⟨Nat.zero_le _, by simpa using hr.canonical.isZero_iff.mp hzero⟩

omit [IsStrictOrderedRing K] in
theorem termCount_polynomial_le (terms : TermSum K) :
    (polynomial terms).termCount ≤ terms.length := by
  induction terms with
  | nil => simp
  | cons t rest ih =>
    rw [polynomial_cons, List.length_cons, add_comm rest.length]
    refine (Laurent.termCount_add_le _ _).trans (Nat.add_le_add ?_ ih)
    exact Laurent.termCount_single_le _ _

/-- **A division that succeeds is right.**  The divisor did not count as zero, the quotient has
no more terms than there are steps, and a constant below the tolerance is left over. -/
theorem divide_sound {dividend divisor quotient : TermSum K}
    (h : divide dividend divisor = .ok quotient) :
    Reduced quotient ∧ ¬ (polynomial divisor).IsNegligible ∧
      (polynomial quotient).termCount ≤ divisionSteps ∧
      (polynomial dividend - polynomial quotient * polynomial divisor).IsNegligible := by
  have ha := reduced_reduce dividend
  have hb := reduced_reduce divisor
  obtain ⟨leading, rest, hfirst, heq⟩ := divide_eq dividend divisor
  rw [heq] at h
  split at h
  · cases h
  · rename_i hbz
    have hnonzero : ¬ (polynomial divisor).IsNegligible := by
      rwa [← polynomial_reduce divisor, ← hb.canonical.isZero_iff]
    split at h
    · rename_i haz
      obtain rfl := Except.ok.inj h
      have hzero : polynomial [(Term.zero : Term K)] = 0 := by simp [Term.polynomial_zero]
      have hreduced : Reduced [(Term.zero : Term K)] := reduced_reduce []
      refine ⟨hreduced, hnonzero, ?_, ?_⟩
      · rw [hzero, Laurent.termCount_zero]
        exact Nat.zero_le _
      · rw [hzero, zero_mul, sub_zero, ← polynomial_reduce dividend]
        exact ha.canonical.isZero_iff.mp haz
    · split at h
      · cases h
      · obtain ⟨terms, hterms, rfl⟩ := map_eq_ok_iff.mp h
        have hl : leading.coefficient ≠ 0 :=
          coefficient_ne_zero_of_not_isZero hb.canonical hbz (hfirst ▸ List.mem_cons_self)
        obtain ⟨hlength, hnegligible⟩ :=
          quotientTerms_sound hl divisionSteps _ terms ha hterms
        rw [polynomial_reduce, polynomial_reduce] at hnegligible
        rw [polynomial_reduce]
        exact ⟨reduced_reduce terms, hnonzero,
          (termCount_polynomial_le terms).trans hlength, hnegligible⟩

/-! ### Divisions that peel -/

/-- With nothing left to peel, the remainder decides. -/
theorem Peels.ends_zero {divisor : TermSum K} {leading : Term K} {s : Laurent K}
    {among : Laurent K → Prop} (h : Peels divisor leading s among) (steps : Nat)
    {remainder : TermSum K} (hr : Reduced remainder) (heq : polynomial remainder = s) :
    Ends (quotientTerms divisor leading steps remainder) steps 0 s := by
  have hzero := hr.canonical.isZero_iff
  rw [heq] at hzero
  rw [quotientTerms_of_not_isDivisible steps (h.stop remainder hr heq)]
  refine Ends.of_zero steps (fun hs => Or.inr ?_) (fun hs => ⟨[], ?_, rfl⟩)
  · rw [if_neg (hzero.not.mpr hs)]
  · rw [if_pos (hzero.mpr hs)]

/-- **Division takes as many steps as the quotient has terms, and what remains decides.** -/
theorem quotientTerms_of_peels {divisor : TermSum K} {leading : Term K} {s : Laurent K}
    {among : Laurent K → Prop} (hl : leading.coefficient ≠ 0)
    (h : Peels divisor leading s among) :
    ∀ (steps : Nat) (q : Laurent K) (remainder : TermSum K), among q → Reduced remainder →
      polynomial remainder = q * polynomial divisor + s →
      Ends (quotientTerms divisor leading steps remainder) steps q s := by
  intro steps
  induction steps with
  | zero =>
    intro q remainder hq hr heq
    by_cases hzero : q = 0
    · subst hzero
      exact h.ends_zero 0 hr (by simpa using heq)
    · have hpos := Laurent.termCount_pos hzero
      obtain ⟨hdivisible, -⟩ := h.step q remainder hq hzero hr heq
      exact ⟨fun _ => quotientTerms_zero hdivisible, fun hle => by omega, fun hle => by omega⟩
  | succ steps ih =>
    intro q remainder hq hr heq
    by_cases hzero : q = 0
    · subst hzero
      exact h.ends_zero (steps + 1) hr (by simpa using heq)
    · obtain ⟨hdivisible, first, rest, m, rfl, hm, hmonomial, hcoefficient, herase⟩ :=
        h.step q remainder hq hzero hr heq
      obtain ⟨factor, hfactor, hpolynomial⟩ := Term.divide_eq_ok first hl
      -- the factor is the term of `q` that goes
      rw [hmonomial, hcoefficient, add_sub_cancel_right, mul_div_cancel_right₀ _ hl]
        at hpolynomial
      have hsplit := AddMonoidAlgebra.single_add_erase m q
      have hrest : polynomial (subtractMultiple (first :: rest) divisor factor)
          = q.erase m * polynomial divisor + s := by
        have herased : q - AddMonoidAlgebra.single m (q.coeff m) = q.erase m :=
          sub_eq_of_eq_add' hsplit.symm
        rw [polynomial_subtractMultiple, heq, hpolynomial, ← herased]
        ring
      have hends := ih (q.erase m) _ herase (reduced_subtractMultiple _ divisor factor) hrest
      rw [quotientTerms_succ hdivisible hfactor]
      refine hends.map ?_ fun terms hterms => ?_
      · rw [← Laurent.termCount_erase hm, Nat.add_le_add_iff_right]
      · rw [polynomial_cons factor terms, hpolynomial, hterms, hsplit]

/-- The same for the whole division, which refuses a dividend of small degree beforehand. -/
theorem divide_of_peels {dividend divisor : TermSum K}
    (hb : ¬ (polynomial divisor).IsNegligible)
    {q s : Laurent K} {among : Laurent K → Prop}
    (h : ∀ leading rest, reduce divisor = leading :: rest →
      Peels (reduce divisor) leading s among)
    (hq : among q) (heq : polynomial dividend = q * polynomial divisor + s) :
    Ends (divide dividend divisor) divisionSteps q s := by
  have ha := reduced_reduce dividend
  have hcanonical := (reduced_reduce divisor).canonical
  have hbz : ¬ (reduce divisor).isZero = true := by
    rwa [hcanonical.isZero_iff, polynomial_reduce]
  obtain ⟨leading, rest, hfirst, hdivide⟩ := divide_eq dividend divisor
  have hpeels := h leading rest hfirst
  by_cases hzero : q = 0
  · subst hzero
    have hs : polynomial (reduce dividend) = s := by
      rw [polynomial_reduce, heq, zero_mul, zero_add]
    have hnegligible := ha.canonical.isZero_iff
    rw [hs] at hnegligible
    by_cases haz : (reduce dividend).isZero = true
    · rw [divide_of_isZero hbz haz]
      refine Ends.of_zero _ (fun hns => absurd (hnegligible.mp haz) hns) fun _ => ⟨_, rfl, ?_⟩
      simp [Term.polynomial_zero]
    · have hstop := hpeels.stop _ ha hs
      rw [← Bool.not_eq_true, isDivisible_eq_true_iff] at hstop
      have hlt : (reduce dividend).degree < (reduce divisor).degree :=
        not_le.mp fun hle => hstop ⟨by simpa using haz, hle⟩
      rw [hdivide, if_neg hbz, if_neg haz, if_pos hlt]
      exact Ends.of_zero _ (fun _ => Or.inl rfl) fun hs => absurd (hnegligible.mpr hs) haz
  · rw [← polynomial_reduce dividend, ← polynomial_reduce divisor] at heq
    have hl : leading.coefficient ≠ 0 :=
      coefficient_ne_zero_of_not_isZero hcanonical hbz (hfirst ▸ List.mem_cons_self)
    obtain ⟨hdivisible, -⟩ := hpeels.step q _ hq hzero ha heq
    rw [divide_of_isDivisible hfirst hbz hdivisible]
    exact (quotientTerms_of_peels hl hpeels divisionSteps q _ hq ha heq).map Iff.rfl
      fun terms hterms => (polynomial_reduce terms).trans hterms

end TermSum

/-! ### Trees -/

namespace Expr

theorem collapse_divide (dividend divisor : TermSum K) :
    (Expr.binary .divide (.sum dividend) (.sum divisor)).collapse
      = TermSum.divide (TermSum.reduce dividend) (TermSum.reduce divisor) := by
  rw [collapse, if_neg (by simp)]
  rfl

variable [IsStrictOrderedRing K]

/-- **A quotient that a division collapses into is right**, for any number of variables and any
exponents: the divisor is not zero, and what the quotient times the divisor leaves of the
dividend is a constant below the tolerance. -/
theorem trySimplify_divide_sound {dividend divisor : TermSum K} {r : Expr K}
    (h : (Expr.binary .divide (.sum dividend) (.sum divisor)).trySimplify = some r) :
    TermSum.polynomial divisor ≠ 0 ∧ ∃ quotient c, r = .sum quotient ∧ |c| < 1 / 1000000 ∧
      TermSum.polynomial dividend - TermSum.polynomial quotient * TermSum.polynomial divisor
        = AddMonoidAlgebra.single 0 c := by
  obtain ⟨quotient, hquotient, rfl⟩ := trySimplify_eq_some_iff.mp h
  rw [collapse_divide] at hquotient
  obtain ⟨-, hb, -, c, hc, hleft⟩ := TermSum.divide_sound hquotient
  rw [TermSum.polynomial_reduce] at hb
  rw [TermSum.polynomial_reduce, TermSum.polynomial_reduce] at hleft
  refine ⟨fun hzero => hb ?_, quotient, c, rfl, hc, hleft⟩
  rw [hzero]
  exact Laurent.isNegligible_zero

/-- Two variables, negative exponents, and a remainder below the tolerance. -/
theorem trySimplify_divide_negative_exponents :
    let dividend : TermSum ℚ := [Term.ofPowers 1 [("x", 2), ("y", -1)],
      Term.ofPowers (-1) [("y", -3)], Term.ofPowers (1 / 2000000) []]
    let divisor : TermSum ℚ := [Term.ofPowers 1 [("x", 1)], Term.ofPowers (-1) [("y", -1)]]
    ∃ r, (Expr.binary .divide (.sum dividend) (.sum divisor)).trySimplify = some r ∧
      TermSum.polynomial divisor ≠ 0 ∧ ∃ quotient c, r = .sum quotient ∧ |c| < 1 / 1000000 ∧
        TermSum.polynomial dividend - TermSum.polynomial quotient * TermSum.polynomial divisor
          = AddMonoidAlgebra.single 0 c := by
  intro dividend divisor
  have hsome : (Expr.binary .divide (.sum dividend) (.sum divisor)).trySimplify.isSome = true := by
    decide +kernel
  obtain ⟨r, hr⟩ := Option.isSome_iff_exists.mp hsome
  exact ⟨r, hr, trySimplify_divide_sound hr⟩

end Expr

end PolyAlgebra
