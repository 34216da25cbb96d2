/-
What the residual of a root says.

Solving starts by simplifying, and everything after that is about the simplified expression: its
degrees choose the formula, its values guide the search, and its value at the root is the
residual (`solve_found`).  So the residual is that of the expression itself as long as
simplifying keeps values.  Where the terms of the expression have values at the root, it does if
there are no divisions.  Where a division is carried out, its divisor may be zero at the root,
and then the expression has no value there; or something below the tolerance was left over and
dropped, and then its value is another one.  The main result says that nothing else can happen
(`solve_residual`), and quotients and products with a line for their simplified form show that
each of these does.
-/
import Mathlib
import PolyAlgebra.Proofs.Cancellation
import PolyAlgebra.Proofs.ClosedForm
import PolyAlgebra.Proofs.EuclideanDivision
import PolyAlgebra.Proofs.Expansion
import PolyAlgebra.Proofs.RootSearch
import PolyAlgebra.Proofs.Substitution

namespace PolyAlgebra

open Polynomial

variable {K : Type} [Field K] [LinearOrder K] [FloorRing K] [Unsettled K]
  [IsStrictOrderedRing K]

namespace Solver

/-! ### Roots of the simplified expression -/

omit [IsStrictOrderedRing K] in
/-- If a formula gives the roots, it is because of the exponents. -/
theorem univariate_of_formulaRoots? {name : String} {terms : TermSum K}
    (honly : TermSum.MentionsOnly name terms) {roots : List (Root K)}
    (h : formulaRoots? name terms = some roots) :
    TermSum.Univariate name terms := by
  have hdegrees : ∀ t ∈ terms, t.degree ∈ [0, 1, ((2 : Int) : K)] := by
    rw [formulaRoots?] at h
    split at h
    · rename_i hlinear
      intro t ht
      have := (hasDegrees_iff _).mp hlinear t ht
      simp only [List.mem_cons, List.not_mem_nil, or_false] at this ⊢
      exact this.imp_right Or.inl
    · split at h
      · rename_i hquadratic
        exact (hasDegrees_iff _).mp hquadratic
      · cases h
  refine honly.univariate fun t ht => ?_
  have hdegree := hdegrees t ht
  rw [honly.degree_eq ht, List.mem_cons, List.mem_cons, List.mem_singleton] at hdegree
  rcases hdegree with h | h | h
  · exact ⟨0, by simpa using h⟩
  · exact ⟨1, by simpa using h⟩
  · exact ⟨2, by simpa using h⟩

theorem formulaRoots?_found {name : String} {terms : TermSum K}
    (hc : TermSum.Canonical terms) (hname : (Expr.sum terms).variableNames = [name])
    {roots : List (Root K)} (h : formulaRoots? name terms = some roots) {root : Root K}
    (hroot : root ∈ roots) :
    ∃ point value, Found (.sum terms) (Expr.sum terms).variableNames point value ∧
      root = ⟨Vector.ofNumbers point, Number.abs value⟩ := by
  have hu := univariate_of_formulaRoots? (TermSum.mentionsOnly_of_variableNames hname) h
  rw [formulaRoots?_eq hc hu] at h
  split at h
  · obtain rfl := Option.some_inj.mp h
    obtain ⟨v, -, rfl⟩ := List.mem_map.mp hroot
    refine ⟨_, _, ⟨hname ▸ NameMap.covers_insert_empty name v, ?_⟩, rfl⟩
    exact hu.value_eq (by rw [NameMap.get?_insert, if_pos rfl])
  · cases h

/-- **Every root comes with the absolute value of the simplified expression there**, whichever
way it was found. -/
theorem solve_found {solver : Solver K} {e : Expr K} {roots : List (Root K)}
    (h : solver.solve e = .ok roots) {root : Root K} (hroot : root ∈ roots) :
    ∃ point value, Found e.simplify e.simplify.variableNames point value ∧
      root = ⟨Vector.ofNumbers point, Number.abs value⟩ := by
  rw [solve] at h
  split at h
  · rename_i closed hclosed
    obtain rfl := Except.ok.inj h
    rw [closedForm?] at hclosed
    split at hclosed
    · rename_i terms name hterms hname
      have hsum : e.simplify = .sum terms := by
        cases hs : e.simplify <;> simp_all [Expr.terms?]
      have hc : TermSum.Canonical terms := (Expr.hasCanonicalForm_sum_iff.mp
        (hsum ▸ Expr.simplify_hasCanonicalForm e)).toCanonical
      rw [hsum] at hname ⊢
      exact formulaRoots?_found hc hname hclosed hroot
    · cases hclosed
  · obtain ⟨found, hfound, rfl⟩ := map_eq_ok_iff.mp h
    rw [List.mem_singleton.mp hroot]
    exact solveIteratively_found hfound

end Solver

/-! ### Quotients and products of powers -/

namespace Expr

/-- The quotient of two polynomials in one variable. -/
noncomputable def quotient (name : String) (a b : K[X]) : Expr K :=
  .binary .divide (.sum (TermSum.ofUnivariate name a)) (.sum (TermSum.ofUnivariate name b))

/-- The product of two powers of a variable, and a polynomial added to it. -/
noncomputable def productOfPowers (name : String) (m n : K) (q : K[X]) : Expr K :=
  .binary .add
    (.binary .multiply (.sum [Term.ofPowers 1 [(name, m)]]) (.sum [Term.ofPowers 1 [(name, n)]]))
    (.sum (TermSum.ofUnivariate name q))

theorem quotient_value {b : Bindings K} {name : String} {x : K} (hx : b name = some x)
    (a d : K[X]) : (quotient name a d).value b = Operator.divide.apply (a.eval x) (d.eval x) := by
  rw [quotient, value, value, value, TermSum.value_ofUnivariate hx, TermSum.value_ofUnivariate hx]
  rfl

theorem productOfPowers_value {b : Bindings K} {name : String} {x : K} (hx : b name = some x)
    (m n : K) (q : K[X]) : (productOfPowers name m n q).value b
      = .ok (Number.pow x m * Number.pow x n + q.eval x) := by
  have hpower : ∀ exponent : K, TermSum.value [Term.ofPowers 1 [(name, exponent)]] b
      = .ok (Number.pow x exponent) := by
    intro exponent
    rw [TermSum.value, List.mapM_cons, Term.value_ofPower hx, one_mul]
    exact congrArg Except.ok ((Exact.total_eq_sum _).trans List.sum_singleton)
  rw [productOfPowers, value, value, value, value, value, hpower, hpower,
    TermSum.value_ofUnivariate hx]
  rfl

/-- What is left over below the tolerance is dropped. -/
theorem quotient_collapse (name : String) {p b : K[X]} {c : K} (hp : p.natDegree < 1000)
    (hb : 1 ≤ b.natDegree) (hc : |c| < 1 / 1000000) :
    (quotient name (p * b + C c) b).collapse = .ok (TermSum.ofUnivariate name p) := by
  have hpolynomial := fun q : K[X] => (TermSum.polynomial_reduce _).trans
    (TermSum.polynomial_ofUnivariate name q)
  have hends := TermSum.divide_univariate (hpolynomial (p * b + C c))
    (hpolynomial b) hb (degree_C_le.trans_lt (natDegree_pos_iff_degree_pos.mp hb))
  have hcount : (Laurent.ofUnivariate name p).termCount ≤ TermSum.divisionSteps := by
    rw [Laurent.termCount_ofUnivariate]
    exact (card_supp_le_succ_natDegree p).trans hp
  rw [quotient, collapse_divide]
  exact hends.eq_ofUnivariate hcount
    ((Laurent.isNegligible_ofUnivariate_iff name _).mpr ⟨c, rfl, hc⟩)

theorem quotient_exactDivisions (name : String) {a b p : K[X]} (ha : a = p * b)
    (hp : p.natDegree < 1000) (hb : 1 ≤ b.natDegree) : (quotient name a b).ExactDivisions := by
  subst ha
  have hcollapse := quotient_collapse (c := 0) name hp hb (by norm_num)
  rw [C_0, add_zero, quotient, collapse_divide] at hcollapse
  refine ⟨trivial, trivial, fun _ l r q hl hr hq => ?_⟩
  obtain rfl := Except.ok.inj hl
  obtain rfl := Except.ok.inj hr
  obtain rfl := Except.ok.inj (hcollapse.symm.trans hq)
  rw [TermSum.polynomial_reduce, TermSum.polynomial_reduce, TermSum.polynomial_ofUnivariate,
    TermSum.polynomial_ofUnivariate, TermSum.polynomial_ofUnivariate, map_mul]

/-- In one variable with natural exponents, a value for the variable is enough. -/
theorem evaluable_of_univariate {e : Expr K} {name : String}
    (h : TermSum.Univariate name e.leafTerms) {b : Bindings K} {x : K} (hx : b name = some x) :
    e.Evaluable b where
  bound other hother := by
    obtain ⟨t, ht, exponent, hget⟩ := (mem_variableNames_iff e other).mp hother
    rw [(h t ht other exponent hget).1]
    exact ⟨x, hx⟩
  whole t ht other exponent hget := by
    obtain ⟨n, rfl⟩ := (h t ht other exponent hget).2
    exact ⟨n, (Int.cast_natCast n).symm⟩
  nonzero t ht other exponent hget hneg := by
    obtain ⟨n, rfl⟩ := (h t ht other exponent hget).2
    exact absurd hneg (not_lt.mpr n.cast_nonneg)

theorem quotient_evaluable {name : String} (a d : K[X]) {b : Bindings K} {x : K}
    (hx : b name = some x) : (quotient name a d).Evaluable b :=
  have hleaves : TermSum.Univariate name (quotient name a d).leafTerms := by
    intro t ht
    rcases List.mem_append.mp ht with ht | ht
    · exact TermSum.univariate_ofUnivariate name a t ht
    · exact TermSum.univariate_ofUnivariate name d t ht
  evaluable_of_univariate hleaves hx

end Expr

/-- A point can be read back from the vector that holds it. -/
theorem Vector.ofNumbers_injective : Function.Injective (ofNumbers : NameMap K → Vector K) := by
  intro m n h
  refine NameMap.ext fun name => Option.map_injective Expr.ofNumber_injective ?_
  rw [← NameMap.get?_map, ← NameMap.get?_map]
  exact congrArg (fun v => v.components.get? name) h

namespace Solver

/-- A division that leaves a line for its quotient has the zero of the line for its root, and no
residual, whatever the divisor is there. -/
theorem solve_quotient (solver : Solver K) (name : String) {a b : K[X]} (v : K) {c : K}
    (ha : a = (X - C v) * b + C c) (hb : 1 ≤ b.natDegree) (hc : |c| < 1 / 1000000) :
    solver.solve (.quotient name a b)
      = .ok [⟨Vector.ofNumbers (NameMap.empty.insert name v), 0⟩] := by
  subst ha
  have hdegree : (X - C v).natDegree < 1000 := by
    rw [natDegree_X_sub_C]
    norm_num
  exact solve_line solver (Expr.quotient_collapse name hdegree hb hc)
    (TermSum.polynomial_ofUnivariate name _)

/-- The same for powers that multiply to a natural one. -/
theorem solve_productOfPowers (solver : Solver K) (name : String) {m n : K} {k : ℕ} {q : K[X]}
    (v : K) (hsum : m + n = k) (hline : X ^ k + q = X - C v) :
    solver.solve (.productOfPowers name m n q)
      = .ok [⟨Vector.ofNumbers (NameMap.empty.insert name v), 0⟩] := by
  have htree : (Expr.productOfPowers name m n q).IsRingTree :=
    .add (.multiply (.sum _) (.sum _)) (.sum _)
  obtain ⟨terms, hcollapse, -, hpolynomial⟩ := Expr.collapse_of_isRingTree htree
  have hproduct : Laurent.ofUnivariate name (X ^ k)
      = AddMonoidAlgebra.single (Finsupp.single name (m + n)) (1 : K) := by
    rw [← monomial_one_right_eq_X_pow, Laurent.ofUnivariate_monomial, Laurent.powerOf_apply, hsum]
  refine solve_line solver hcollapse ?_
  rw [hpolynomial, ← hline, map_add, hproduct, Expr.productOfPowers, Expr.polynomial,
    Expr.polynomial, Expr.polynomial, Expr.polynomial, Expr.polynomial,
    TermSum.polynomial_ofUnivariate]
  simp [Term.polynomial_ofPowers, AddMonoidAlgebra.single_mul_single, Finsupp.single_add]

/-! ### Roots of the expression itself -/

/-- The expression has a value, and this is how far it is from zero. -/
def HasResidual (e : Expr K) (b : Bindings K) (residual : K) : Prop :=
  ∃ value, e.value b = .ok value ∧ |value| = residual

/-- **The residual of a root is that of the simplified expression.**  Where the terms of the
expression itself have values, it is that of the expression if this contains no division, and
otherwise unless it divides by zero there or simplifying dropped a remainder. -/
theorem solve_residual {solver : Solver K} {e : Expr K} {roots : List (Root K)}
    (h : solver.solve e = .ok roots) {root : Root K} (hroot : root ∈ roots) :
    ∃ point : NameMap K, root.point = Vector.ofNumbers point ∧
      point.Covers e.simplify.variableNames ∧
      ∀ b : Bindings K, (∀ name x, point.get? name = some x → b name = some x) →
        HasResidual e.simplify b root.residual ∧
        (e.Evaluable b → e.DivideFree → HasResidual e b root.residual) ∧
        (e.Evaluable b → e.ExactDivisions →
          e.value b = .error .divideByZero ∨ HasResidual e b root.residual) := by
  obtain ⟨point, value, hfound, rfl⟩ := solve_found h hroot
  refine ⟨point, rfl, hfound.covers, fun b hb => ?_⟩
  have hsimplified : HasResidual e.simplify b (Number.abs value) := by
    have hagree : ∀ name ∈ e.simplify.variableNames, b name = point.get? name := by
      intro name hname
      obtain ⟨x, hx⟩ := (NameMap.mem_names_iff _ _).mp ((hfound.covers name).mpr hname)
      rw [hb name x hx, hx]
    refine ⟨value, ?_, (Exact.abs_eq value).symm⟩
    rw [Expr.value_congr hagree]
    exact hfound.value_eq
  refine ⟨hsimplified, fun hevaluable hfree => ?_, fun hevaluable hexact => ?_⟩
  · rwa [HasResidual, ← Expr.simplify_value_of_admits hfree hevaluable.admits]
  · refine (Expr.simplify_value_or_fails hexact hevaluable.admits).imp_right fun hvalue => ?_
    rwa [HasResidual, ← hvalue]

/-- The quotient of `x ^ 2 - 1` and `x - 1` has a root at which it does not divide by zero. -/
theorem solve_residual_quotient :
    let e : Expr ℝ := .quotient "x" (X ^ 2 - 1) (X - 1)
    let root : Root ℝ := ⟨Vector.ofNumbers (NameMap.empty.insert "x" (-1)), 0⟩
    let b : Bindings ℝ := Bindings.only "x" (-1)
    (standard.solve e = .ok [root] ∧ root ∈ [root] ∧
      e.Evaluable b ∧ e.ExactDivisions ∧ e.value b ≠ .error .divideByZero) ∧
      HasResidual e.simplify b 0 ∧ HasResidual e b 0 := by
  intro e root b
  have hx : b "x" = some (-1) := Bindings.only_self "x" (-1)
  have hdivisor : 1 ≤ (X - 1 : ℝ[X]).natDegree := (natDegree_X_sub_C (1 : ℝ)).ge
  have hfactor : (X ^ 2 - 1 : ℝ[X]) = (X - C (-1)) * (X - 1) := by
    rw [C_neg, C_1]
    ring
  have hsolve : standard.solve e = .ok [root] :=
    solve_quotient standard "x" (-1) (c := 0) (by rw [hfactor, C_0, add_zero]) hdivisor
      (by norm_num)
  have hevaluable : e.Evaluable b := Expr.quotient_evaluable _ _ hx
  have hexact : e.ExactDivisions := by
    refine Expr.quotient_exactDivisions "x" hfactor ?_ hdivisor
    rw [natDegree_X_sub_C]
    norm_num
  have hvalue : e.value b ≠ .error .divideByZero := by
    rw [Expr.quotient_value hx, Operator.apply, if_neg (by norm_num)]
    intro h
    cases h
  have hmem := List.mem_singleton_self root
  obtain ⟨point, hpoint, -, hall⟩ := solve_residual hsolve hmem
  obtain rfl := Vector.ofNumbers_injective hpoint
  obtain ⟨hsimplified, -, hdivides⟩ := hall b fun name x hget => by
    rw [NameMap.get?_insert] at hget
    by_cases hname : name = "x" <;> simp_all
  exact ⟨⟨hsolve, hmem, hevaluable, hexact, hvalue⟩, hsimplified,
    (hdivides hevaluable hexact).resolve_left hvalue⟩

/-- **The residual need not be that of the expression itself.**  Four ways in which simplifying
changes the value at the root: a divisor is cancelled that is zero there, a remainder below the
tolerance is dropped, powers whose exponents are not whole are multiplied, and so is a power of
zero with a negative exponent. -/
theorem residual_of_simplified_only :
    let root (v : ℝ) : Root ℝ := ⟨Vector.ofNumbers (NameMap.empty.insert "x" v), 0⟩
    let cancelled : Expr ℝ := .quotient "x" (X ^ 2) X
    let dropped : Expr ℝ := .quotient "x" (X ^ 2 - X + C (1 / 10000000)) X
    let fractional : Expr ℝ := .productOfPowers "x" (1 / 2) (1 / 2) 1
    let inverse : Expr ℝ := .productOfPowers "x" (-1) 1 (X - 1)
    HasSquareRoots ℝ ∧
    (standard.solve cancelled = .ok [root 0] ∧
      cancelled.value (Bindings.only "x" 0) = .error .divideByZero) ∧
    (standard.solve dropped = .ok [root 1] ∧
      dropped.value (Bindings.only "x" 1) = .ok (1 / 10000000)) ∧
    (standard.solve fractional = .ok [root (-1)] ∧
      fractional.value (Bindings.only "x" (-1)) = .ok 1) ∧
    (standard.solve inverse = .ok [root 0] ∧
      inverse.value (Bindings.only "x" 0) = .ok (-1)) := by
  intro root cancelled dropped fractional inverse
  have hsqrt : HasSquareRoots ℝ := fun y hy => ⟨Real.sqrt_nonneg y, Real.mul_self_sqrt hy⟩
  have hx : ∀ v : ℝ, Bindings.only "x" v "x" = some v := Bindings.only_self "x"
  refine ⟨hsqrt, ⟨?_, ?_⟩, ⟨?_, ?_⟩, ⟨?_, ?_⟩, ?_, ?_⟩
  · exact solve_quotient standard "x" 0 (c := 0) (by rw [C_0]; ring) natDegree_X.ge (by norm_num)
  · rw [Expr.quotient_value (hx 0), Operator.apply, if_pos (by simp)]
  · exact solve_quotient standard "x" 1 (c := 1 / 10000000) (by rw [C_1]; ring) natDegree_X.ge
      (by norm_num [abs_lt])
  · simp [dropped, Expr.quotient_value (hx 1), Operator.apply]
  · exact solve_productOfPowers standard "x" (k := 1) (-1) (by norm_num) (by simp)
  · have hroot : Number.pow (-1 : ℝ) (1 / 2) = 0 := by
      have hhalf : ∀ n : ℤ, (1 / 2 : ℝ) ≠ n := by
        intro n h
        have hdouble : (1 : ℝ) = (2 * n : ℤ) := by
          push_cast
          linarith
        have := Int.cast_eq_one.mp hdouble.symm
        omega
      rw [Exact.pow_of_not_whole _ hhalf]
      show (-1 : ℝ) ^ (1 / 2 : ℝ) = 0
      rw [Real.rpow_def_of_neg (by norm_num), one_div_mul_eq_div, Real.cos_pi_div_two, mul_zero]
    rw [Expr.productOfPowers_value (hx (-1)), hroot, zero_mul, zero_add, eval_one]
  · exact solve_productOfPowers standard "x" (k := 0) 0 (by norm_num) (by simp)
  · have hzero : Number.pow (0 : ℝ) 1 = 0 := by simpa using Exact.pow_intCast (0 : ℝ) 1
    rw [Expr.productOfPowers_value (hx 0), hzero]
    simp

end Solver

end PolyAlgebra
