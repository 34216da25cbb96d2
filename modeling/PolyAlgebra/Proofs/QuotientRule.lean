/-
The quotient rule.

The derivative of a quotient of two sums is built in three steps: the numerator of the quotient
rule and the square of the divisor are brought into canonical form, and then the division of the
one by the other is carried out if it can be (`quotientDerivative_of_sums`).  The first two steps
are exact.  The third is not: a numerator that is a constant below the tolerance counts as zero,
and a division leaves such a constant behind.  So at every point without zeros the derivative has
the value that the quotient rule gives, except for one constant in the numerator
(`differentiate_quotient`).

The constant need not be small compared with what is left, and then the derivative is simply wrong
(`differentiate_quotient_small`).
-/
import Mathlib
import PolyAlgebra.Proofs.Cancellation
import PolyAlgebra.Proofs.Differentiation
import PolyAlgebra.Proofs.Variables

namespace PolyAlgebra

variable {K : Type} [Field K] [LinearOrder K] [FloorRing K] [Unsettled K] {b : Bindings K}

/-- The numerator of the quotient rule. -/
noncomputable def Laurent.quotientNumerator (name : String) (p q : Laurent K) : Laurent K :=
  q * derivative name p - p * derivative name q

/-! ### Points without zeros -/

theorem Term.whole_of_within {t : Term K} {S : Set String} (hwithin : t.Within S)
    (hS : ∀ v ∈ S, ∃ x, b v = some x ∧ x ≠ 0)
    (h : ∀ v exponent, t.powers.get? v = some exponent → ∃ n : Int, exponent = n) :
    t.powers.Whole b := by
  refine ⟨fun v exponent hget => ?_, fun v => ?_⟩
  · obtain ⟨x, hx, -⟩ := hS v (hwithin v exponent hget)
    exact ⟨x, hx⟩
  · rw [NameMap.toFinsupp_apply]
    cases hget : t.powers.get? v with
    | none => exact ⟨0, by simp⟩
    | some exponent => exact h v exponent hget

/-- Whole exponents are lowered to whole exponents. -/
theorem Term.differentiate_whole {t : Term K} (ht : t.powers.Whole b) (name : String) :
    (t.differentiate name).powers.Whole b := by
  have hzero : (Term.zero : Term K).powers.Whole b := NameMap.Admits.empty.toWhole
  rw [differentiate]
  cases hget : t.powers.get? name with
  | none => exact hzero
  | some x =>
    dsimp only
    split
    · exact hzero
    · refine NameMap.Whole.normalise ⟨fun other exponent hother => ?_, fun other => ?_⟩ _
      · rw [NameMap.get?_insert] at hother
        split at hother
        · rename_i heq
          exact heq ▸ ht.bound name x hget
        · exact ht.bound other exponent hother
      · obtain ⟨n, hn⟩ := ht.whole other
        rw [toFinsupp_insert t.powers name x (x - 1) hget, sub_sub_cancel, Finsupp.sub_apply,
          Finsupp.single_apply, hn]
        split
        · exact ⟨n - 1, by push_cast; rfl⟩
        · exact ⟨n, by rw [sub_zero]⟩

variable [IsStrictOrderedRing K]

/-- Where no variable is zero, terms with whole exponents have values. -/
theorem Term.admits_of_within {t : Term K} (ht : t.powers.Whole b) {S : Set String}
    (hwithin : t.Within S) (hS : ∀ name ∈ S, ∃ x, b name = some x ∧ x ≠ 0) : t.Admits b := by
  refine ht.admits fun name hname => ?_
  rw [NameMap.toFinsupp_apply]
  cases hget : t.powers.get? name with
  | none => exact le_rfl
  | some exponent =>
    obtain ⟨x, hx, hne⟩ := hS name (hwithin name exponent hget)
    rw [Bindings.number, hx] at hname
    exact absurd hname hne

namespace Expr

/-! ### The steps of the rule -/

/-- A sum, difference or product of two sums that have values at a point simplifies to one that
has. -/
theorem simplify_of_sums {op : Operator} {l r : TermSum K}
    (hop : (Expr.binary op (.sum l) (.sum r)).IsRingTree) :
    ∃ terms, simplify (.binary op (.sum l) (.sum r)) = .sum terms ∧ TermSum.Canonical terms ∧
      TermSum.polynomial terms = (Expr.binary op (.sum l) (.sum r)).polynomial ∧
      ∀ b : Bindings K, (∀ t ∈ l, t.Admits b) → (∀ t ∈ r, t.Admits b) →
        ∀ t ∈ terms, t.Admits b := by
  obtain ⟨terms, hterms, hcanonical, hpolynomial⟩ := collapse_of_isRingTree hop
  have hfree : (Expr.binary op (.sum l) (.sum r)).DivideFree := by
    refine ⟨?_, trivial, trivial⟩
    rintro rfl
    cases hop
  refine ⟨terms, simplify_of_collapse hterms, hcanonical, hpolynomial, fun b hbl hbr => ?_⟩
  exact (collapsesTo hfree (forall_leafTerms_binary.mpr ⟨hbl, hbr⟩) terms hterms).1

/-- What the rule makes of its numerator and the square of the divisor. -/
def quotientOrZero (numerator square : TermSum K) : Expr K :=
  if (Expr.sum numerator).isZero then zero
  else (trySimplify (.binary .divide (.sum numerator) (.sum square))).getD
    (.binary .divide (.sum numerator) (.sum square))

/-- **The derivative of a quotient of sums is the quotient of two sums**, which stand for the
numerator of the quotient rule and for the square of the divisor. -/
theorem quotientDerivative_of_sums (p q dp dq : TermSum K) :
    ∃ numerator square, TermSum.Canonical numerator ∧
      TermSum.polynomial numerator = TermSum.polynomial q * TermSum.polynomial dp
        - TermSum.polynomial p * TermSum.polynomial dq ∧
      TermSum.polynomial square = TermSum.polynomial q * TermSum.polynomial q ∧
      (∀ b : Bindings K, (∀ t ∈ p, t.Admits b) → (∀ t ∈ q, t.Admits b) →
        (∀ t ∈ dp, t.Admits b) → (∀ t ∈ dq, t.Admits b) →
        (∀ t ∈ numerator, t.Admits b) ∧ ∀ t ∈ square, t.Admits b) ∧
      combineDerivatives.quotientDerivative (.sum p) (.sum q) (.sum dp) (.sum dq)
        = quotientOrZero numerator square := by
  obtain ⟨l, hl, -, hpl, hbl⟩ := simplify_of_sums (.multiply (.sum q) (.sum dp))
  obtain ⟨r, hr, -, hpr, hbr⟩ := simplify_of_sums (.multiply (.sum p) (.sum dq))
  obtain ⟨numerator, hn, hcn, hpn, hbn⟩ := simplify_of_sums (.subtract (.sum l) (.sum r))
  obtain ⟨square, hs, -, hps, hbs⟩ := simplify_of_sums (.multiply (.sum q) (.sum q))
  refine ⟨numerator, square, hcn, ?_, hps, fun b hp hq hdp hdq => ?_, ?_⟩
  · rw [hpn, polynomial, polynomial, polynomial, hpl, hpr]
    rfl
  · exact ⟨hbn b (hbl b hq hdp) (hbr b hp hdq), hbs b hq hq⟩
  · rw [combineDerivatives.quotientDerivative, hl, hr, hn, hs]
    rfl

theorem zero_value : (zero : Expr K).value b = .ok 0 := by
  have hbound : ∀ t ∈ [(Term.zero : Term K)], t.Bound b :=
    List.forall_mem_singleton.mpr Term.Bound.zero
  rw [zero, value, TermSum.value_eq hbound, TermSum.polynomial_cons, TermSum.polynomial_nil,
    add_zero, Term.polynomial_zero, map_zero]

/-- **The last step drops one constant.**  It is below the tolerance, and it is what is left when
a multiple of the square is taken off the numerator. -/
theorem quotientOrZero_value {n : TermSum K} (hn : TermSum.Canonical n) (square : TermSum K) :
    ∃ s : K, |s| < 1 / 1000000 ∧
      (s ≠ 0 → ∃ Q, TermSum.polynomial n
        = Q * TermSum.polynomial square + AddMonoidAlgebra.single 0 s) ∧
      ∀ (b : Bindings K) (S : Set String), (∀ name ∈ S, ∃ x, b name = some x ∧ x ≠ 0) →
        (quotientOrZero n square).Within S → (∀ t ∈ n, t.Admits b) → (∀ t ∈ square, t.Admits b) →
        Laurent.valueAt b (TermSum.polynomial square) ≠ 0 →
        (quotientOrZero n square).value b
          = .ok ((Laurent.valueAt b (TermSum.polynomial n) - s)
            / Laurent.valueAt b (TermSum.polynomial square)) := by
  rw [quotientOrZero]
  split
  · rename_i hzero
    obtain ⟨c, hc, heq⟩ := hn.isZero_iff.mp hzero
    refine ⟨c, hc, fun _ => ⟨0, by rw [heq, zero_mul, zero_add]⟩, fun b S hS _ _ _ _ => ?_⟩
    rw [heq, Laurent.valueAt_constant, sub_self, zero_div]
    exact zero_value
  · cases hr : trySimplify (.binary .divide (.sum n) (.sum square)) with
    | none =>
      refine ⟨0, by norm_num, fun h => absurd rfl h, fun b S _ _ hbn hbs hne => ?_⟩
      rw [Option.getD_none, value, value, value, TermSum.value_eq fun t ht => (hbn t ht).bound,
        TermSum.value_eq fun t ht => (hbs t ht).bound, sub_zero]
      show (if _ == (0 : K) then _ else _) = _
      rw [if_neg (by simpa using hne)]
    | some r =>
      obtain ⟨quotient, hquotient, rfl⟩ := trySimplify_eq_some_iff.mp hr
      rw [collapse_divide] at hquotient
      obtain ⟨-, _, c, ⟨rfl⟩, hc, hleft⟩ := trySimplify_divide_sound hr
      have heq := sub_eq_iff_eq_add'.mp hleft
      refine ⟨c, hc, fun _ => ⟨TermSum.polynomial quotient, heq⟩, ?_⟩
      intro b S hS hwithin hbn hbs hne
      have hwhole := TermSum.divide_whole (reduce_admits hbn) (reduce_admits hbs) hquotient
      have hbq : ∀ t ∈ quotient, t.Admits b := fun t ht =>
        Term.admits_of_within (hwhole t ht) (hwithin t ht) hS
      have hvalue : Laurent.valueAt b (TermSum.polynomial n)
          = Laurent.valueAt b (TermSum.polynomial quotient)
            * Laurent.valueAt b (TermSum.polynomial square) + c := by
        rw [heq, map_add, ← TermSum.polynomial_products, TermSum.valueAt_products hbq hbs,
          Laurent.valueAt_constant]
      rw [Option.getD_some, value, TermSum.value_eq fun t ht => (hbq t ht).bound, hvalue,
        add_sub_cancel_right, mul_div_cancel_right₀ _ hne]

/-! ### The rule -/

/-- A sum with whole exponents and its derivative have values where no variable is zero. -/
theorem differentiate_sum_admits {p : TermSum K}
    (hwhole : ∀ t ∈ p, ∀ v exponent, t.powers.get? v = some exponent → ∃ n : Int, exponent = n)
    (name : String) :
    ∃ dp, (Expr.sum p).differentiate name = .ok (.sum dp) ∧
      TermSum.polynomial dp = Laurent.derivative name (TermSum.polynomial p) ∧
      ∀ (b : Bindings K) (S : Set String), (∀ v ∈ S, ∃ x, b v = some x ∧ x ≠ 0) →
        (Expr.sum p).Within S → (∀ t ∈ p, t.Admits b) ∧ ∀ t ∈ dp, t.Admits b := by
  obtain ⟨dp, hdp, -, hpolynomial⟩ := differentiate_of_isRingTree (.sum p) name
  refine ⟨dp, hdp, hpolynomial, fun b S hS hwithin => ?_⟩
  have hp_whole : ∀ t ∈ p, t.powers.Whole b := fun t ht =>
    Term.whole_of_within (hwithin t ht) hS (hwhole t ht)
  have hdp_whole : ∀ t ∈ dp, t.powers.Whole b := by
    obtain rfl := Expr.sum.inj (Except.ok.inj hdp)
    refine TermSum.reduce_forall (P := fun t => t.powers.Whole b) NameMap.Admits.empty.toWhole
      (fun _ c ht => ht.normalise c) fun t ht => ?_
    obtain ⟨u, hu, rfl⟩ := List.mem_map.mp ht
    exact Term.differentiate_whole (hp_whole u hu) name
  have hdp_within := differentiate_within hwithin hdp
  exact ⟨fun t ht => Term.admits_of_within (hp_whole t ht) (hwithin t ht) hS,
    fun t ht => Term.admits_of_within (hdp_whole t ht) (hdp_within t ht) hS⟩

/-- **The quotient rule holds except for one constant in the numerator.**  A quotient of sums has
a derivative.  Where no variable is zero and the divisor is not, its value is that of the
quotient rule with a constant left out, which is below the tolerance; unless it is zero, the rest
of the numerator is a multiple of the square of the divisor.  The derivative is the zero sum if
the numerator is nothing but such a constant. -/
theorem differentiate_quotient {p q : TermSum K}
    (hwhole : ∀ t ∈ p ++ q, ∀ v exponent, t.powers.get? v = some exponent →
      ∃ n : Int, exponent = n) (name : String) :
    ∃ d dp dq s, (Expr.sum p).differentiate name = .ok dp ∧
      (Expr.sum q).differentiate name = .ok dq ∧
      (Expr.binary .divide (.sum p) (.sum q)).differentiate name = .ok d ∧
      |s| < 1 / 1000000 ∧
      (s ≠ 0 → ∃ Q, Laurent.quotientNumerator name (TermSum.polynomial p) (TermSum.polynomial q)
        = Q * TermSum.polynomial q ^ 2 + AddMonoidAlgebra.single 0 s) ∧
      ((Laurent.quotientNumerator name (TermSum.polynomial p)
        (TermSum.polynomial q)).IsNegligible → d = zero) ∧
      ∀ b : Bindings K,
        (∀ v ∈ (Expr.binary .divide (.sum p) (.sum q)).variableNames,
          ∃ x, b v = some x ∧ x ≠ 0) →
        ∃ x y x' y', (Expr.sum p).value b = .ok x ∧ (Expr.sum q).value b = .ok y ∧
          dp.value b = .ok x' ∧ dq.value b = .ok y' ∧
          (y ≠ 0 → d.value b = .ok ((y * x' - x * y' - s) / y ^ 2)) := by
  obtain ⟨hwp, hwq⟩ := List.forall_mem_append.mp hwhole
  obtain ⟨dp, hdp, hpdp, hbp⟩ := differentiate_sum_admits hwp name
  obtain ⟨dq, hdq, hpdq, hbq⟩ := differentiate_sum_admits hwq name
  obtain ⟨n, square, hcn, hpn, hps, hbn, hquotient⟩ := quotientDerivative_of_sums p q dp dq
  obtain ⟨s, hs, hmultiple, hvalue⟩ := quotientOrZero_value hcn square
  have hd : (Expr.binary .divide (.sum p) (.sum q)).differentiate name
      = .ok (quotientOrZero n square) := by
    rw [differentiate_binary (by simp) hdp hdq, combineDerivatives, hquotient]
  have hnumerator : Laurent.quotientNumerator name (TermSum.polynomial p) (TermSum.polynomial q)
      = TermSum.polynomial n := by
    rw [Laurent.quotientNumerator, hpn, hpdp, hpdq]
  refine ⟨_, _, _, s, hdp, hdq, hd, hs, ?_, ?_, fun b hb => ?_⟩
  · rwa [hnumerator, pow_two, ← hps]
  · intro hnegligible
    rw [hnumerator] at hnegligible
    exact if_pos (hcn.isZero_iff.mpr hnegligible)
  · have hwithin := within_variableNames (Expr.binary .divide (.sum p) (.sum q))
    obtain ⟨hp_within, hq_within⟩ := within_binary_iff.mp hwithin
    obtain ⟨hbp, hbdp⟩ := hbp b _ hb hp_within
    obtain ⟨hbq, hbdq⟩ := hbq b _ hb hq_within
    obtain ⟨hbn, hbs⟩ := hbn b hbp hbq hbdp hbdq
    refine ⟨_, _, _, _, TermSum.value_eq fun t ht => (hbp t ht).bound,
      TermSum.value_eq fun t ht => (hbq t ht).bound,
      TermSum.value_eq fun t ht => (hbdp t ht).bound,
      TermSum.value_eq fun t ht => (hbdq t ht).bound, fun hy => ?_⟩
    have hn_value : Laurent.valueAt b (TermSum.polynomial n)
        = Laurent.valueAt b (TermSum.polynomial q) * Laurent.valueAt b (TermSum.polynomial dp)
          - Laurent.valueAt b (TermSum.polynomial p)
            * Laurent.valueAt b (TermSum.polynomial dq) := by
      rw [hpn, map_sub, ← TermSum.polynomial_products, ← TermSum.polynomial_products,
        TermSum.valueAt_products hbq hbdp, TermSum.valueAt_products hbp hbdq]
    have hs_value : Laurent.valueAt b (TermSum.polynomial square)
        = Laurent.valueAt b (TermSum.polynomial q) ^ 2 := by
      rw [hps, ← TermSum.polynomial_products, TermSum.valueAt_products hbq hbq, pow_two]
    have hne : Laurent.valueAt b (TermSum.polynomial square) ≠ 0 := by
      rw [hs_value]
      exact pow_ne_zero 2 hy
    rw [hvalue b _ hb (differentiate_within hwithin hd) hbn hbs hne, hn_value, hs_value]

/-- Two variables and a negative exponent. -/
theorem differentiate_quotient_negative_exponent :
    let p : TermSum ℚ := .reduce [Term.ofPowers 1 [("x", 2)], Term.ofPowers 3 [("y", -1)]]
    let q : TermSum ℚ := .reduce [Term.ofPowers 1 [("x", 1)], Term.ofPowers 1 [("y", 1)]]
    (∀ t ∈ p ++ q, ∀ v exponent, t.powers.get? v = some exponent → ∃ n : Int, exponent = n) ∧
    ∃ d dp dq s, (Expr.sum p).differentiate "x" = .ok dp ∧
      (Expr.sum q).differentiate "x" = .ok dq ∧
      (Expr.binary .divide (.sum p) (.sum q)).differentiate "x" = .ok d ∧
      |s| < 1 / 1000000 ∧
      (s ≠ 0 → ∃ Q, Laurent.quotientNumerator "x" (TermSum.polynomial p) (TermSum.polynomial q)
        = Q * TermSum.polynomial q ^ 2 + AddMonoidAlgebra.single 0 s) ∧
      ((Laurent.quotientNumerator "x" (TermSum.polynomial p)
        (TermSum.polynomial q)).IsNegligible → d = zero) ∧
      ∀ b : Bindings ℚ,
        (∀ v ∈ (Expr.binary .divide (.sum p) (.sum q)).variableNames,
          ∃ x, b v = some x ∧ x ≠ 0) →
        ∃ x y x' y', (Expr.sum p).value b = .ok x ∧ (Expr.sum q).value b = .ok y ∧
          dp.value b = .ok x' ∧ dq.value b = .ok y' ∧
          (y ≠ 0 → d.value b = .ok ((y * x' - x * y' - s) / y ^ 2)) := by
  intro p q
  have hpower : ∀ (c : ℚ) (name : String) (n : Int), ∀ v exponent,
      (Term.ofPowers c [(name, (n : ℚ))]).powers.get? v = some exponent →
        ∃ n : Int, exponent = n := by
    intro c name n v exponent hget
    obtain ⟨-, rfl⟩ := Prod.mk.inj (List.mem_singleton.mp (Term.mem_of_get?_ofPowers hget))
    exact ⟨n, rfl⟩
  have hwhole : ∀ t ∈ p ++ q, ∀ v exponent, t.powers.get? v = some exponent →
      ∃ n : Int, exponent = n := by
    rw [List.forall_mem_append]
    constructor
    · exact TermSum.forall_powers_reduce (List.forall_mem_cons.mpr
        ⟨mod_cast hpower 1 "x" 2, List.forall_mem_singleton.mpr (mod_cast hpower 3 "y" (-1))⟩)
    · exact TermSum.forall_powers_reduce (List.forall_mem_cons.mpr
        ⟨mod_cast hpower 1 "x" 1, List.forall_mem_singleton.mpr (mod_cast hpower 1 "y" 1)⟩)
  exact ⟨hwhole, differentiate_quotient hwhole "x"⟩

/-- **A quotient of small numbers has a wrong derivative.**  The slope of the quotient is an
eighth, but the numerator of the quotient rule counts as zero. -/
theorem differentiate_quotient_small :
    let p : TermSum ℚ := .ofTerm (Term.ofPowers (1 / 4096) [("x", 1)])
    let q : TermSum ℚ := .ofNumber (1 / 512)
    let b : Bindings ℚ := Bindings.only "x" 1
    TermSum.Canonical p ∧ TermSum.Canonical q ∧
    ∃ d dp dq, (Expr.sum p).differentiate "x" = .ok dp ∧
      (Expr.sum q).differentiate "x" = .ok dq ∧
      (Expr.binary .divide (.sum p) (.sum q)).differentiate "x" = .ok d ∧
      ∃ x y x' y', (Expr.sum p).value b = .ok x ∧ (Expr.sum q).value b = .ok y ∧
        dp.value b = .ok x' ∧ dq.value b = .ok y' ∧ y ≠ 0 ∧
        (y * x' - x * y') / y ^ 2 = 1 / 8 ∧ d.value b = .ok 0 := by
  intro p q b
  have hderived : ∀ (e : Expr ℚ) (v : ℚ),
      ((e.differentiate "x").toOption.bind fun d => (d.value b).toOption) = some v →
        ∃ d, e.differentiate "x" = .ok d ∧ d.value b = .ok v := by
    intro e v h
    cases hd : e.differentiate "x" with
    | error error => simp [hd, Except.toOption] at h
    | ok d =>
      refine ⟨d, rfl, ?_⟩
      cases hv : d.value b with
      | error error => simp [hd, hv, Except.toOption] at h
      | ok w => simpa [hd, hv, Except.toOption] using h
  obtain ⟨dp, hdp, hx'⟩ := hderived (.sum p) (1 / 4096) (by decide +kernel)
  obtain ⟨dq, hdq, hy'⟩ := hderived (.sum q) 0 (by decide +kernel)
  obtain ⟨d, hd, hzero⟩ := hderived (.binary .divide (.sum p) (.sum q)) 0 (by decide +kernel)
  refine ⟨TermSum.reduce_canonical _, TermSum.reduce_canonical _, d, dp, dq, hdp, hdq, hd, 1 / 4096,
    1 / 512, 1 / 4096, 0, by decide +kernel, by decide +kernel, hx', hy', by norm_num, by norm_num,
    hzero⟩

end Expr

end PolyAlgebra
