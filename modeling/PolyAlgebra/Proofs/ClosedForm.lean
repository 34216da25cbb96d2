/-
Formulas find all roots.

A formula is chosen by the degrees of the terms and fed with coefficients that are added up
exponent by exponent.  For a canonical sum in one variable both say what they should of the
polynomial it stands for: the terms have the degrees that a formula covers exactly if the
polynomial does (`hasDegrees_iff`), and the sums are its coefficients (`coefficientOf_eq`).  So
a formula gives the zeros of a polynomial of degree one or two, each with the value there as its
residual (`formulaRoots?_eq`).

What is left is school algebra.  With an exact square root these values are zero, the two
zeros stand in order after sorting, and a polynomial of degree two has no others.  They are
merged into one if they are equal up to the precision, which exact arithmetic does not rule out.
-/
import Mathlib
import PolyAlgebra.Proofs.CanonicalResults
import PolyAlgebra.Proofs.Substitution
import PolyAlgebra.Proofs.Univariate
import PolyAlgebra.Solver

namespace PolyAlgebra

open Polynomial

/-! ### The quadratic formula -/

section Formula

variable {α : Type} [Number α]

/-- What stands under the square root. -/
def discriminant (a b c : α) : α := b * b - ((4 : Int) : α) * a * c

/-- The zero that the formula gives with the minus sign. -/
def minusZero (a b c : α) : α :=
  (-b - Number.sqrt (discriminant a b c)) / (((2 : Int) : α) * a)

/-- The zero that the formula gives with the plus sign. -/
def plusZero (a b c : α) : α :=
  (-b + Number.sqrt (discriminant a b c)) / (((2 : Int) : α) * a)

/-- The two zeros are there, and equal up to the precision. -/
def Merged (a b c : α) : Prop :=
  ¬ discriminant a b c < 0 ∧
    Number.isRelativelyEqual (minusZero a b c) (plusZero a b c) = true

theorem Solver.quadraticZeros_eq (a b c : α) :
    quadraticZeros a b c =
      if discriminant a b c < 0 then []
      else if Number.isRelativelyEqual (minusZero a b c) (plusZero a b c) then [minusZero a b c]
      else stableSort Number.order [minusZero a b c, plusZero a b c] := rfl

end Formula

section Exact

variable {K : Type} [Field K] [LinearOrder K] [FloorRing K] [Unsettled K]

/-- Square roots are exact: what is not negative has one, and it is not negative. -/
def HasSquareRoots (K : Type) [Field K] [LinearOrder K] [FloorRing K] [Unsettled K] : Prop :=
  ∀ y : K, 0 ≤ y → 0 ≤ Number.sqrt y ∧ Number.sqrt y * Number.sqrt y = y

theorem isRelativelyEqual_self (x : K) : Number.isRelativelyEqual x x = true := by
  simp [Number.isRelativelyEqual]

/-- What counts as the same zero. -/
theorem isRelativelyEqual_iff [IsStrictOrderedRing K] (x y : K) :
    Number.isRelativelyEqual x y = true ↔
      |x - y| ≤ 1 / 4503599627370496 ∨ |x - y| ≤ max |x| |y| / 4503599627370496 := by
  have hprecision : (Number.precision : K) = 1 / 4503599627370496 := by
    rw [Number.precision, Int.cast_ofNat]
  have hatMost : ∀ u v : K, Number.atMost u v = true ↔ u ≤ v := by
    intro u v
    simp [Number.atMost, le_iff_lt_or_eq]
  by_cases hxy : x = y
  · subst hxy
    simp [isRelativelyEqual_self]
  · have hfinite : Number.isFinite x = true ∧ Number.isFinite y = true := ⟨rfl, rfl⟩
    rw [Number.isRelativelyEqual, if_neg (by simpa using hxy), if_pos (by simp [hfinite]),
      Bool.or_eq_true, hatMost, hatMost, Exact.larger_eq_max, Exact.abs_eq, Exact.abs_eq,
      Exact.abs_eq, hprecision, max_comm, mul_one_div]

theorem discriminant_eq (a b c : K) : discriminant a b c = discrim a b c := by
  rw [discriminant, discrim, Int.cast_ofNat, sq]

/-- Two different numbers are put in order by sorting them. -/
theorem stableSort_pair {x y : K} (h : x ≠ y) :
    (stableSort Number.order [x, y]).Pairwise (· < ·) := by
  have hsort : stableSort Number.order [x, y] = if y < x then [y, x] else [x, y] := by
    show (placeFromEnd Number.order y [x]).reverse = _
    rw [placeFromEnd]
    by_cases hlt : y < x
    · rw [if_pos ((Number.order_eq_lt_iff y x).mpr hlt), if_pos hlt]
      rfl
    · rw [if_neg fun hlt' => hlt ((Number.order_eq_lt_iff y x).mp hlt'), if_neg hlt]
      rfl
  rw [hsort]
  split
  · rename_i hlt
    simpa using hlt
  · rename_i hge
    simpa using lt_of_le_of_ne (not_lt.mp hge) h

variable {a b c : K}

/-- A zero shows that there is something to take the square root of. -/
theorem discriminant_nonneg [IsStrictOrderedRing K] {v : K} (h : a * v * v + b * v + c = 0) :
    ¬ discriminant a b c < 0 := by
  rw [mul_assoc] at h
  rw [discriminant_eq, discrim_eq_sq_of_quadratic_eq_zero h]
  exact not_lt.mpr (sq_nonneg _)

/-- **The formula gives all zeros and nothing else.** -/
theorem quadratic_eq_zero_iff_formula (hsqrt : HasSquareRoots K) (ha : a ≠ 0)
    (hd : ¬ discriminant a b c < 0) (v : K) :
    a * v * v + b * v + c = 0 ↔ v = minusZero a b c ∨ v = plusZero a b c := by
  have hroot := (hsqrt _ (not_lt.mp hd)).2.symm
  nth_rewrite 1 [discriminant_eq] at hroot
  rw [mul_assoc, quadratic_eq_zero_iff ha hroot, or_comm, minusZero, plusZero, Int.cast_ofNat]

theorem quadraticZeros_pairwise (a b c : K) :
    (Solver.quadraticZeros a b c).Pairwise (· < ·) := by
  rw [Solver.quadraticZeros_eq]
  split
  · exact List.Pairwise.nil
  · split
    · exact List.pairwise_singleton _ _
    · rename_i hne
      refine stableSort_pair fun heq => hne ?_
      rw [heq, isRelativelyEqual_self]

theorem quadraticZeros_zero (hsqrt : HasSquareRoots K) (ha : a ≠ 0) {v : K}
    (h : v ∈ Solver.quadraticZeros a b c) : a * v * v + b * v + c = 0 := by
  rw [Solver.quadraticZeros_eq] at h
  split at h
  · simp at h
  · rename_i hd
    refine (quadratic_eq_zero_iff_formula hsqrt ha hd v).mpr ?_
    split at h
    · exact Or.inl (List.mem_singleton.mp h)
    · simpa using (stableSort_perm _ _).mem_iff.mp h

/-- No zero is missed unless the two are merged. -/
theorem mem_quadraticZeros [IsStrictOrderedRing K] (hsqrt : HasSquareRoots K) (ha : a ≠ 0)
    (hmerged : ¬ Merged a b c) {v : K} (h : a * v * v + b * v + c = 0) :
    v ∈ Solver.quadraticZeros a b c := by
  have hd := discriminant_nonneg h
  have hzeros := (quadratic_eq_zero_iff_formula hsqrt ha hd v).mp h
  rw [Solver.quadraticZeros_eq, if_neg hd, if_neg fun hequal => hmerged ⟨hd, hequal⟩]
  exact (stableSort_perm _ _).mem_iff.mpr (by simpa using hzeros)

theorem quadraticZeros_of_merged (h : Merged a b c) :
    Solver.quadraticZeros a b c = [minusZero a b c] := by
  rw [Solver.quadraticZeros_eq, if_neg h.1, if_pos h.2]

end Exact

/-! ### Polynomials of low degree -/

section LowDegree

variable {K : Type} [Field K] {p : K[X]}

theorem eval_of_natDegree_le_two (h : p.natDegree ≤ 2) (v : K) :
    p.eval v = p.coeff 2 * v * v + p.coeff 1 * v + p.coeff 0 := by
  rw [eval_eq_sum_range' (Nat.lt_succ_of_le h)]
  simp only [Finset.sum_range_succ, Finset.sum_range_zero]
  ring

theorem eval_of_natDegree_le_one (h : p.natDegree ≤ 1) (v : K) :
    p.eval v = p.coeff 1 * v + p.coeff 0 := by
  rw [eval_of_natDegree_le_two (h.trans one_le_two), coeff_eq_zero_of_natDegree_lt (by omega)]
  ring

theorem coeff_ne_zero_of_natDegree_eq {n : ℕ} (h : p.natDegree = n) (hn : n ≠ 0) :
    p.coeff n ≠ 0 := by
  rw [← h]
  exact leadingCoeff_ne_zero.mpr (ne_zero_of_natDegree_gt (Nat.pos_of_ne_zero (h ▸ hn)))

theorem eval_eq_zero_iff_of_natDegree_eq_one (h : p.natDegree = 1) (v : K) :
    p.eval v = 0 ↔ v = -p.coeff 0 / p.coeff 1 := by
  rw [eval_of_natDegree_le_one h.le,
    eq_div_iff (coeff_ne_zero_of_natDegree_eq h one_ne_zero), eq_neg_iff_add_eq_zero, mul_comm]

end LowDegree

variable {K : Type} [Field K] [LinearOrder K] [FloorRing K] [Unsettled K]

/-! ### Which formula, and with which coefficients -/

namespace TermSum

/-- The terms mention no other variable. -/
def MentionsOnly (name : String) (terms : TermSum K) : Prop :=
  ∀ t ∈ terms, ∀ other exponent, t.powers.get? other = some exponent → other = name

variable {name : String} {terms : TermSum K}

theorem mentionsOnly_of_variableNames (h : (Expr.sum terms).variableNames = [name]) :
    MentionsOnly name terms := by
  intro t ht other exponent hget
  have hmem := (Expr.mem_variableNames_iff (.sum terms) other).mpr ⟨t, ht, exponent, hget⟩
  rw [h] at hmem
  exact List.mem_singleton.mp hmem

theorem MentionsOnly.monomial_eq (h : MentionsOnly name terms) {t : Term K} (ht : t ∈ terms) :
    t.monomial = Finsupp.single name (t.exponent name) := by
  refine Finsupp.ext fun other => ?_
  rw [Finsupp.single_apply, Term.monomial, NameMap.toFinsupp_apply]
  split
  · rename_i hname
    rw [hname, Term.exponent]
  · rename_i hname
    cases hget : t.powers.get? other with
    | none => rfl
    | some exponent => exact absurd (h t ht other exponent hget).symm hname

theorem MentionsOnly.degree_eq (h : MentionsOnly name terms) {t : Term K} (ht : t ∈ terms) :
    t.degree = t.exponent name := by
  rw [Term.degree_eq, h.monomial_eq ht, Laurent.degreeOf_single]

/-- If the exponents are natural numbers, the sum stands for a polynomial. -/
theorem MentionsOnly.univariate (h : MentionsOnly name terms)
    (hexponents : ∀ t ∈ terms, ∃ n : ℕ, t.exponent name = n) : Univariate name terms := by
  intro t ht other exponent hget
  obtain rfl := h t ht other exponent hget
  obtain ⟨n, hn⟩ := hexponents t ht
  rw [Term.exponent, hget] at hn
  exact ⟨rfl, n, hn⟩

theorem Univariate.mentionsOnly (h : Univariate name terms) : MentionsOnly name terms :=
  fun t ht other exponent hget => (h t ht other exponent hget).1

theorem Univariate.exists_exponent_eq (h : Univariate name terms) {t : Term K} (ht : t ∈ terms) :
    ∃ n : ℕ, t.exponent name = n := by
  rw [Term.exponent]
  cases hget : t.powers.get? name with
  | none => exact ⟨0, by simp⟩
  | some exponent => exact (h t ht name exponent hget).2

variable [IsStrictOrderedRing K]

/-- **No degree is above a bound exactly if the polynomial's is not.** -/
theorem Canonical.forall_degree_iff (hc : Canonical terms) (hu : Univariate name terms) (n : ℕ) :
    (∀ t ∈ terms, ∃ k ≤ n, t.degree = (k : K)) ↔ (toUnivariate name terms).natDegree ≤ n := by
  have hdegree := hc.degree_eq_natDegree hu.ofUnivariate_toUnivariate.symm
  have hne : terms ≠ [] := by
    rcases hc.zeroAlone with rfl | ⟨hne, -⟩
    · simp
    · exact hne
  obtain ⟨hmem, hupper⟩ := isGreatest_degree hne
  rw [hdegree] at hmem hupper
  constructor
  · intro h
    obtain ⟨t, ht, heq⟩ := hmem
    obtain ⟨k, hk, hkeq⟩ := h t ht
    rw [hkeq, Nat.cast_inj] at heq
    exact heq ▸ hk
  · intro h t ht
    obtain ⟨k, hk⟩ := hu.exists_exponent_eq ht
    rw [← hu.mentionsOnly.degree_eq ht] at hk
    have hle : t.degree ≤ ((toUnivariate name terms).natDegree : K) := hupper ⟨t, ht, rfl⟩
    rw [hk, Nat.cast_le] at hle
    exact ⟨k, hle.trans h, hk⟩

/-- **A canonical sum mentions its variable exactly if the polynomial is not constant.** -/
theorem Canonical.mem_variableNames_iff (hc : Canonical terms) (hu : Univariate name terms) :
    name ∈ (Expr.sum terms).variableNames ↔ (toUnivariate name terms).natDegree ≠ 0 := by
  have hmention : ∀ t ∈ terms, (∃ k ≤ 0, t.degree = ((k : ℕ) : K)) ↔
      ¬ ∃ exponent, t.powers.get? name = some exponent := by
    intro t ht
    rw [hu.mentionsOnly.degree_eq ht, Term.exponent]
    cases hget : t.powers.get? name with
    | none => simp
    | some exponent =>
      have hne : exponent ≠ 0 := by
        simpa using t.normalised.exponents name exponent hget
      simpa using hne
  rw [Expr.mem_variableNames_iff, Ne, ← Nat.le_zero, ← hc.forall_degree_iff hu,
    forall₂_congr hmention]
  simp [Expr.leafTerms]

theorem Canonical.variableNames_eq (hc : Canonical terms) (hu : Univariate name terms)
    (hdegree : (toUnivariate name terms).natDegree ≠ 0) :
    (Expr.sum terms).variableNames = [name] := by
  refine List.perm_singleton.mp ((List.perm_ext_iff_of_nodup (NameMap.nodup_names _)
    (List.nodup_singleton name)).mpr fun other => ?_)
  rw [List.mem_singleton]
  constructor
  · intro h
    obtain ⟨t, ht, exponent, hget⟩ := (Expr.mem_variableNames_iff _ other).mp h
    exact (hu t ht other exponent hget).1
  · rintro rfl
    exact (hc.mem_variableNames_iff hu).mpr hdegree

end TermSum

namespace Solver

open TermSum

section Coefficients

variable {name : String} {terms : TermSum K}

theorem hasDegrees_iff (degrees : List K) :
    hasDegrees degrees terms = true ↔ ∀ t ∈ terms, t.degree ∈ degrees := by
  rw [hasDegrees, List.all_eq_true]
  refine forall₂_congr fun t _ => ?_
  rw [List.any_eq_true]
  simp

variable [IsStrictOrderedRing K]

/-- **The coefficients with an exponent add up to that of the polynomial.** -/
theorem coefficientOf_eq (h : Univariate name terms) (k : ℕ) :
    coefficientOf name (k : K) terms = (toUnivariate name terms).coeff k := by
  have key : ∀ (ts : TermSum K) (sum : K), Univariate name ts →
      (ts.filter (fun t => t.exponent name == (k : K))).foldl
          (fun sum t => sum + t.coefficient) sum
        = sum + (toUnivariate name ts).coeff k := by
    intro ts
    induction ts with
    | nil => intro sum _; simp [toUnivariate]
    | cons t rest ih =>
      intro sum hts
      obtain ⟨n, hn⟩ := hts.exists_exponent_eq List.mem_cons_self
      have hrest : Univariate name rest := fun u hu => hts u (List.mem_cons_of_mem _ hu)
      have hcons : toUnivariate name (t :: rest)
          = monomial n t.coefficient + toUnivariate name rest := by
        rw [toUnivariate, List.map_cons, List.sum_cons, hn, Nat.floor_natCast, toUnivariate]
      rw [hcons, coeff_add, coeff_monomial, List.filter_cons, hn]
      by_cases hnk : n = k
      · rw [if_pos (by simpa using hnk), if_pos hnk, List.foldl_cons, ih _ hrest, add_assoc]
      · rw [if_neg (by simpa using hnk), if_neg hnk, ih _ hrest, zero_add]
  rw [coefficientOf, key terms 0 h, zero_add]

theorem hasDegrees_range_iff (hc : Canonical terms) (hu : Univariate name terms) (n : ℕ) :
    hasDegrees ((List.range (n + 1)).map (Nat.cast : ℕ → K)) terms = true ↔
      (toUnivariate name terms).natDegree ≤ n := by
  rw [hasDegrees_iff, ← hc.forall_degree_iff hu]
  refine forall₂_congr fun t _ => ?_
  simp [eq_comm]

theorem exponent_mem_of_natDegree_le_two (hc : Canonical terms) (hu : Univariate name terms)
    (h : (toUnivariate name terms).natDegree ≤ 2) :
    ∀ t ∈ terms, t.exponent name ∈ [0, 1, (2 : K)] := by
  intro t ht
  obtain ⟨k, hk, hdegree⟩ := (hc.forall_degree_iff hu 2).mpr h t ht
  rw [← hu.mentionsOnly.degree_eq ht, hdegree]
  interval_cases k <;> simp

end Coefficients

theorem linearRoots_eq (name : String) (m b : K) :
    linearRoots name m b =
      (if m = 0 then [] else [-b / m]).map fun v => rootAt name v (m * v + b) := by
  rw [linearRoots]
  by_cases hm : m = 0 <;> simp [hm]

/-- The zeros by formula of a polynomial of degree two at most. -/
noncomputable def formulaZeros (p : K[X]) : List K :=
  if p.natDegree ≤ 1 then if p.coeff 1 = 0 then [] else [-p.coeff 0 / p.coeff 1]
  else quadraticZeros (p.coeff 2) (p.coeff 1) (p.coeff 0)

variable [IsStrictOrderedRing K]

/-- **A formula is used exactly up to degree two**, and each zero that it gives comes with the
value there. -/
theorem formulaRoots?_eq {name : String} {terms : TermSum K} (hc : Canonical terms)
    (hu : Univariate name terms) :
    formulaRoots? name terms = if (toUnivariate name terms).natDegree ≤ 2 then
      some ((formulaZeros (toUnivariate name terms)).map fun v =>
        rootAt name v ((toUnivariate name terms).eval v))
    else none := by
  have h0 : coefficientOf name 0 terms = (toUnivariate name terms).coeff 0 := by
    simpa using coefficientOf_eq hu 0
  have h1 : coefficientOf name 1 terms = (toUnivariate name terms).coeff 1 := by
    simpa using coefficientOf_eq hu 1
  have h2 : coefficientOf name ((2 : Int) : K) terms = (toUnivariate name terms).coeff 2 := by
    simpa using coefficientOf_eq hu 2
  have hlinear : hasDegrees [0, 1] terms = true ↔ (toUnivariate name terms).natDegree ≤ 1 := by
    simpa [List.range_succ] using hasDegrees_range_iff hc hu 1
  have hquadratic : hasDegrees [0, 1, ((2 : Int) : K)] terms = true ↔
      (toUnivariate name terms).natDegree ≤ 2 := by
    simpa [List.range_succ] using hasDegrees_range_iff hc hu 2
  rw [formulaRoots?, h0, h1, h2]
  by_cases hle : (toUnivariate name terms).natDegree ≤ 1
  · rw [if_pos (hlinear.mpr hle), if_pos (hle.trans one_le_two), formulaZeros, if_pos hle,
      linearRoots_eq]
    simp only [eval_of_natDegree_le_one hle]
  · rw [if_neg fun h => hle (hlinear.mp h), formulaZeros, if_neg hle]
    by_cases hle' : (toUnivariate name terms).natDegree ≤ 2
    · rw [if_pos (hquadratic.mpr hle'), if_pos hle', quadraticRoots]
      simp only [eval_of_natDegree_le_two hle']
    · rw [if_neg fun h => hle' (hquadratic.mp h), if_neg hle']

/-- The values at which a sum is zero. -/
def IsZeroAt (terms : TermSum K) (name : String) (v : K) : Prop :=
  (Expr.sum terms).value (Bindings.only name v) = .ok 0

theorem isZeroAt_iff {name : String} {terms : TermSum K} (hu : Univariate name terms) (v : K) :
    IsZeroAt terms name v ↔ (toUnivariate name terms).eval v = 0 := by
  rw [IsZeroAt, Expr.value, hu.value_eq (Bindings.only_self name v)]
  exact ⟨Except.ok.inj, congrArg _⟩

/-! ### Soundness and completeness -/

section Zeros

variable {p : K[X]}

omit [IsStrictOrderedRing K] in
theorem formulaZeros_pairwise (p : K[X]) : (formulaZeros p).Pairwise (· < ·) := by
  unfold formulaZeros
  split
  · split
    · exact List.Pairwise.nil
    · exact List.pairwise_singleton _ _
  · exact quadraticZeros_pairwise _ _ _

omit [IsStrictOrderedRing K] in
theorem formulaZeros_of_natDegree_eq_one (h : p.natDegree = 1) :
    formulaZeros p = [-p.coeff 0 / p.coeff 1] := by
  rw [formulaZeros, if_pos h.le, if_neg (coeff_ne_zero_of_natDegree_eq h one_ne_zero)]

omit [IsStrictOrderedRing K] in
theorem formulaZeros_of_natDegree_eq_two (h : p.natDegree = 2) :
    formulaZeros p = quadraticZeros (p.coeff 2) (p.coeff 1) (p.coeff 0) := by
  rw [formulaZeros, if_neg (by omega)]

omit [IsStrictOrderedRing K] in
/-- **Every number that a formula gives is a zero.** -/
theorem eval_of_mem_formulaZeros (hsqrt : HasSquareRoots K)
    (hdegree : p.natDegree = 1 ∨ p.natDegree = 2) {v : K} (h : v ∈ formulaZeros p) :
    p.eval v = 0 := by
  rcases hdegree with hone | htwo
  · rw [formulaZeros_of_natDegree_eq_one hone, List.mem_singleton] at h
    exact (eval_eq_zero_iff_of_natDegree_eq_one hone v).mpr h
  · rw [formulaZeros_of_natDegree_eq_two htwo] at h
    rw [eval_of_natDegree_le_two htwo.le]
    exact quadraticZeros_zero hsqrt (coeff_ne_zero_of_natDegree_eq htwo two_ne_zero) h

/-- The two zeros of the polynomial are merged into one. -/
def IsMerged (p : K[X]) : Prop :=
  p.coeff 2 ≠ 0 ∧ Merged (p.coeff 2) (p.coeff 1) (p.coeff 0)

/-- **A formula misses no zero**, unless it merges two. -/
theorem mem_formulaZeros (hsqrt : HasSquareRoots K)
    (hdegree : p.natDegree = 1 ∨ p.natDegree = 2) (hmerged : ¬ IsMerged p) {v : K}
    (h : p.eval v = 0) : v ∈ formulaZeros p := by
  rcases hdegree with hone | htwo
  · rw [formulaZeros_of_natDegree_eq_one hone, List.mem_singleton]
    exact (eval_eq_zero_iff_of_natDegree_eq_one hone v).mp h
  · have hcoeff := coeff_ne_zero_of_natDegree_eq htwo two_ne_zero
    rw [eval_of_natDegree_le_two htwo.le] at h
    rw [formulaZeros_of_natDegree_eq_two htwo]
    exact mem_quadraticZeros hsqrt hcoeff (fun hm => hmerged ⟨hcoeff, hm⟩) h

omit [IsStrictOrderedRing K] in
theorem formulaZeros_of_isMerged (hdegree : p.natDegree = 1 ∨ p.natDegree = 2)
    (h : IsMerged p) : formulaZeros p = [minusZero (p.coeff 2) (p.coeff 1) (p.coeff 0)] := by
  obtain ⟨hcoeff, hmerged⟩ := h
  rcases hdegree with hone | htwo
  · exact absurd (coeff_eq_zero_of_natDegree_lt (by omega)) hcoeff
  · rw [formulaZeros_of_natDegree_eq_two htwo, quadraticZeros_of_merged hmerged]

end Zeros

omit [IsStrictOrderedRing K] in
theorem solve_of_closedForm (solver : Solver K) {e : Expr K} {terms : TermSum K} {name : String}
    (hs : e.simplify = .sum terms) (hname : (Expr.sum terms).variableNames = [name])
    {roots : List (Root K)} (hroots : formulaRoots? name terms = some roots) :
    solver.solve e = .ok roots := by
  have hclosed : closedForm? (Expr.sum terms) = some roots := by
    rw [closedForm?, Expr.terms?, hname]
    exact hroots
  rw [solve, hs, hclosed]

/-- What collapses into a line has one root, the zero of the line. -/
theorem solve_line (solver : Solver K) {e : Expr K} {terms : TermSum K}
    (h : e.collapse = .ok terms) {name : String} {v : K}
    (hp : polynomial terms = Laurent.ofUnivariate name (X - C v)) :
    solver.solve e = .ok [⟨Vector.ofNumbers (NameMap.empty.insert name v), 0⟩] := by
  have hc := (Expr.collapse_canonicalForm h).toCanonical
  have hu := hc.univariate hp
  have hdegree : (X - C v).natDegree = 1 := natDegree_X_sub_C v
  have hname := hc.variableNames_eq hu (by rw [hc.toUnivariate_eq hp, hdegree]; exact one_ne_zero)
  have hroots := formulaRoots?_eq hc hu
  rw [hc.toUnivariate_eq hp, if_pos (hdegree.le.trans one_le_two),
    formulaZeros_of_natDegree_eq_one hdegree] at hroots
  rw [solve_of_closedForm solver (Expr.simplify_of_collapse h) hname hroots]
  simp [rootAt, Exact.abs_eq]

/-- **Solving by formula is sound and complete.**  With exact square roots, an expression that
simplifies to a sum in one variable with exponents zero, one and two has its zeros found, in
rising order, each with nothing left over; all of them, unless two are merged into one. -/
theorem solve_closedForm (solver : Solver K) {e : Expr K} {terms : TermSum K} {name : String}
    (hsqrt : HasSquareRoots K)
    (hs : e.simplify = .sum terms) (hname : (Expr.sum terms).variableNames = [name])
    (hexponents : ∀ t ∈ terms, t.exponent name ∈ [0, 1, (2 : K)]) :
    ∃ zeros : List K,
      solver.solve e = .ok (zeros.map fun v =>
        ⟨Vector.ofNumbers (NameMap.empty.insert name v), 0⟩) ∧
      zeros.Pairwise (· < ·) ∧
      (∀ v ∈ zeros, IsZeroAt terms name v) ∧
      (¬ IsMerged (toUnivariate name terms) → ∀ v, IsZeroAt terms name v → v ∈ zeros) ∧
      (IsMerged (toUnivariate name terms) → zeros = [minusZero
        ((toUnivariate name terms).coeff 2) ((toUnivariate name terms).coeff 1)
        ((toUnivariate name terms).coeff 0)]) := by
  have hc : Canonical terms :=
    (Expr.hasCanonicalForm_sum_iff.mp (hs ▸ Expr.simplify_hasCanonicalForm e)).toCanonical
  have honly := mentionsOnly_of_variableNames hname
  have hnatural : ∀ t ∈ terms, ∃ n : ℕ, n ≤ 2 ∧ t.exponent name = n := by
    intro t ht
    rcases List.mem_cons.mp (hexponents t ht) with h | h
    · exact ⟨0, by omega, by simpa using h⟩
    · rcases List.mem_cons.mp h with h | h
      · exact ⟨1, by omega, by simpa using h⟩
      · exact ⟨2, le_rfl, by simpa using h⟩
  have hu := honly.univariate fun t ht => (hnatural t ht).imp fun n hn => hn.2
  have hle : (toUnivariate name terms).natDegree ≤ 2 := by
    refine (hc.forall_degree_iff hu 2).mp fun t ht => ?_
    rw [honly.degree_eq ht]
    exact hnatural t ht
  have hpos := (hc.mem_variableNames_iff hu).mp (by rw [hname]; exact List.mem_singleton_self _)
  have hdegree : (toUnivariate name terms).natDegree = 1 ∨
      (toUnivariate name terms).natDegree = 2 := by omega
  have hroots := formulaRoots?_eq hc hu
  rw [if_pos hle] at hroots
  refine ⟨formulaZeros (toUnivariate name terms), ?_, formulaZeros_pairwise _, fun v hv => ?_,
    fun hmerged v hv => ?_, formulaZeros_of_isMerged hdegree⟩
  · rw [solve_of_closedForm solver hs hname hroots]
    refine congrArg Except.ok (List.map_congr_left fun v hv => ?_)
    rw [eval_of_mem_formulaZeros hsqrt hdegree hv, rootAt, Exact.abs_eq, abs_zero]
  · exact (isZeroAt_iff hu v).mpr (eval_of_mem_formulaZeros hsqrt hdegree hv)
  · exact mem_formulaZeros hsqrt hdegree hmerged ((isZeroAt_iff hu v).mp hv)

/-- Real numbers have square roots, and the two zeros of `x ^ 2 - 3 * x + 2` are found. -/
theorem solve_closedForm_two_zeros :
    let e : Expr ℝ := .sum
      [Term.ofPowers 1 [("x", (2 : ℕ))], Term.ofPowers (-3) [("x", (1 : ℕ))], Term.ofNumber 2]
    HasSquareRoots ℝ ∧
      ∃ zeros : List ℝ,
        standard.solve e = .ok (zeros.map fun v =>
          ⟨Vector.ofNumbers (NameMap.empty.insert "x" v), 0⟩) ∧
        zeros.Pairwise (· < ·) ∧ ∀ v, v ∈ zeros ↔ v = 1 ∨ v = 2 := by
  intro e
  have hsqrt : HasSquareRoots ℝ := fun y hy => ⟨Real.sqrt_nonneg y, Real.mul_self_sqrt hy⟩
  let p : ℝ[X] := monomial 2 1 + (monomial 1 (-3) + monomial 0 2)
  have hconstant : (Term.ofNumber (2 : ℝ)).polynomial
      = Laurent.ofUnivariate "x" (monomial 0 2) := by
    rw [Term.ofNumber, Term.polynomial_normalise, Laurent.ofUnivariate_monomial, map_zero,
      NameMap.toFinsupp_empty]
  have hpolynomial : polynomial (reduce e.leafTerms) = Laurent.ofUnivariate "x" p := by
    rw [polynomial_reduce, Expr.leafTerms, polynomial_cons, polynomial_cons, polynomial_cons,
      polynomial_nil, add_zero, Term.polynomial_ofPower, Term.polynomial_ofPower, hconstant,
      map_add, map_add]
  have hc := reduce_canonical e.leafTerms
  have hu := hc.univariate hpolynomial
  have hp := hc.toUnivariate_eq hpolynomial
  have hdegree : p.natDegree = 2 := by
    simp only [p]
    compute_degree!
  have heval : ∀ v, p.eval v = 0 ↔ v = 1 ∨ v = 2 := by
    intro v
    have hfactor : p.eval v = (v - 1) * (v - 2) := by
      simp [p]
      ring
    rw [hfactor, mul_eq_zero, sub_eq_zero, sub_eq_zero]
  have hnotMerged : ¬ IsMerged (toUnivariate "x" (reduce e.leafTerms)) := by
    rw [hp]
    rintro ⟨-, -, hequal⟩
    have hone : discriminant (p.coeff 2) (p.coeff 1) (p.coeff 0) = 1 := by
      norm_num [discriminant, p, coeff_monomial]
    rw [isRelativelyEqual_iff, minusZero, plusZero, hone] at hequal
    have hroot : Number.sqrt (1 : ℝ) = 1 := Real.sqrt_one
    norm_num [hroot, p, coeff_monomial] at hequal
  have hs : e.simplify = .sum (reduce e.leafTerms) := by
    rw [Expr.simplify, Expr.ofTerms, Expr.leafTerms]
  have hname := hc.variableNames_eq hu (by rw [hp, hdegree]; exact two_ne_zero)
  have hexponents := exponent_mem_of_natDegree_le_two hc hu (by rw [hp, hdegree])
  obtain ⟨zeros, hsolve, hrising, hsound, hcomplete, -⟩ :=
    solve_closedForm standard hsqrt hs hname hexponents
  refine ⟨hsqrt, zeros, hsolve, hrising, fun v => ?_⟩
  rw [← heval, ← hp, ← isZeroAt_iff hu]
  exact ⟨hsound v, hcomplete hnotMerged v⟩

end Solver

end PolyAlgebra
