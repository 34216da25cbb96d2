/-
Interpolation finds the one polynomial through the points.

The unknowns of the system are the coefficients of a polynomial, the highest first, and its
left-hand sides are the values of that polynomial at the inputs (`leftSide_pointEquation`).
So what elimination says about systems becomes a statement about polynomials of degree below
the number of points.  If the inputs are different, a polynomial that is zero at all of them
is zero, and the system is not given up.  If an input occurs twice, the product of the linear
factors of the inputs has a degree below the number of points, and adding it to a solution
gives another one; so there cannot be a single solution.
-/
import Mathlib
import PolyAlgebra.Interpolation
import PolyAlgebra.Proofs.Elimination
import PolyAlgebra.Proofs.Substitution
import PolyAlgebra.Proofs.Univariate

namespace PolyAlgebra

open Polynomial

namespace Interpolation

/-! ### Polynomials by their coefficients, the highest first -/

section Coefficients

variable {K : Type} [Field K]

theorem exponents_succ (count : Nat) : exponents (count + 1) = count :: exponents count := by
  simp [exponents, List.range_succ]

theorem mem_exponents {k count : Nat} : k ∈ exponents count ↔ k < count := by
  simp [exponents]

@[simp] theorem length_exponents (count : Nat) : (exponents count).length = count := by
  simp [exponents]

/-- The polynomial with the given coefficients. -/
noncomputable def highestFirst : List K → K[X]
  | [] => 0
  | c :: rest => monomial rest.length c + highestFirst rest

/-- The coefficients of a polynomial, as many as are asked for. -/
noncomputable def coefficients (count : Nat) (p : K[X]) : List K := (exponents count).map p.coeff

@[simp] theorem length_coefficients (count : Nat) (p : K[X]) :
    (coefficients count p).length = count := by
  simp [coefficients]

theorem degree_highestFirst_lt (cs : List K) : (highestFirst cs).degree < cs.length := by
  induction cs with
  | nil => simp [highestFirst]
  | cons c rest ih =>
    have hlt : (rest.length : WithBot ℕ) < (c :: rest).length := by
      rw [List.length_cons]
      exact_mod_cast Nat.lt_succ_self _
    refine (degree_add_le _ _).trans_lt (max_lt ?_ (ih.trans hlt))
    exact (degree_monomial_le _ _).trans_lt hlt

theorem coefficients_highestFirst (cs : List K) :
    coefficients cs.length (highestFirst cs) = cs := by
  induction cs with
  | nil => rfl
  | cons c rest ih =>
    have hhead : (highestFirst (c :: rest)).coeff rest.length = c := by
      rw [highestFirst, coeff_add, coeff_monomial_same,
        coeff_eq_zero_of_degree_lt (degree_highestFirst_lt rest), add_zero]
    have htail : coefficients rest.length (highestFirst (c :: rest))
        = coefficients rest.length (highestFirst rest) := by
      refine List.map_congr_left fun k hk => ?_
      rw [highestFirst, coeff_add, coeff_monomial, if_neg (mem_exponents.mp hk).ne', zero_add]
    rw [coefficients, List.length_cons, exponents_succ, List.map_cons, hhead, ← coefficients,
      htail, ih]

theorem highestFirst_coefficients {count : Nat} {p : K[X]} (h : p.degree < count) :
    highestFirst (coefficients count p) = p := by
  have key : ∀ n k, (highestFirst (coefficients n p)).coeff k = if k < n then p.coeff k else 0 := by
    intro n k
    induction n with
    | zero => simp [coefficients, exponents, highestFirst]
    | succ n ih =>
      rw [coefficients, exponents_succ, List.map_cons, highestFirst, ← coefficients, coeff_add,
        coeff_monomial, length_coefficients, ih]
      by_cases hk : n = k
      · subst hk
        simp
      · have hiff : k < n + 1 ↔ k < n := by omega
        rw [if_neg hk, zero_add, if_congr hiff rfl rfl]
  ext k
  rw [key]
  split
  · rfl
  · rename_i hk
    refine (coeff_eq_zero_of_degree_lt (h.trans_le ?_)).symm
    exact_mod_cast not_lt.mp hk

end Coefficients

variable {K : Type} [Field K] [LinearOrder K] [FloorRing K] [Unsettled K]

/-! ### The system of the points -/

theorem timesPower_eq (product x : K) (n : Nat) : timesPower product x n = product * x ^ n := by
  induction product, x, n using timesPower.induct with
  | case1 product x =>
    rw [timesPower, if_pos rfl, pow_zero, mul_one]
  | case2 product x n hn ih =>
    rw [dite_eq_ite] at ih
    rw [timesPower, if_neg hn, ih, ← pow_two, ← pow_mul]
    split
    · rename_i hodd
      rw [mul_assoc, ← pow_succ']
      congr 2
      omega
    · congr 2
      omega

theorem naturalPower_eq (x : K) (n : Nat) : naturalPower x n = x ^ n := by
  rw [naturalPower, timesPower_eq, one_mul]

/-- **The left-hand side that a point gives is the value at its input.** -/
theorem leftSide_pointEquation (cs : List K) (input output : K) :
    (pointEquation cs.length input output).leftSide cs = (highestFirst cs).eval input := by
  unfold pointEquation LinearEquation.leftSide
  induction cs with
  | nil => simp [highestFirst]
  | cons c rest ih =>
    simp only [List.length_cons, exponents_succ, List.map_cons, List.zipWith_cons_cons,
      List.sum_cons, ih, highestFirst, eval_add, eval_monomial, naturalPower_eq]
    ring

/-- The equations that the points give. -/
def pointEquations (inputs outputs : List K) : List (LinearEquation K) :=
  List.zipWith (pointEquation inputs.length) inputs outputs

theorem forall_pointEquations {inputs outputs : List K} {P : LinearEquation K → Prop} :
    (∀ e ∈ pointEquations inputs outputs, P e) ↔
      ∀ point ∈ inputs.zip outputs, P (pointEquation inputs.length point.1 point.2) := by
  rw [pointEquations, ← List.map_uncurry_zip_eq_zipWith, List.forall_mem_map]
  rfl

theorem square_pointEquations {inputs outputs : List K} (h : inputs.length = outputs.length) :
    LinearSystem.Square inputs.length (pointEquations inputs outputs) := by
  refine ⟨by rw [pointEquations, List.length_zipWith, ← h, min_self],
    forall_pointEquations.mpr fun point _ => ?_⟩
  simp [pointEquation]

/-- The polynomial has the given outputs at the given inputs. -/
def Passes (inputs outputs : List K) (p : K[X]) : Prop :=
  ∀ point ∈ inputs.zip outputs, p.eval point.1 = point.2

theorem holds_pointEquations_iff {inputs outputs cs : List K} (h : cs.length = inputs.length) :
    (∀ e ∈ pointEquations inputs outputs, e.Holds cs) ↔
      Passes inputs outputs (highestFirst cs) := by
  rw [forall_pointEquations]
  refine forall₂_congr fun point _ => ?_
  rw [LinearEquation.Holds, ← h, leftSide_pointEquation]
  rfl

/-! ### Which systems are solved -/

section Solved

variable [IsStrictOrderedRing K] {inputs outputs : List K}

/-- What is found are the coefficients of the one polynomial through the points. -/
theorem solve_eq_some_iff (hlength : inputs.length = outputs.length) {known : List K}
    (h : LinearSystem.solve inputs.length (pointEquations inputs outputs) = some known) :
    ∃ p : K[X], p.degree < inputs.length ∧ known = coefficients inputs.length p ∧
      ∀ q : K[X], q.degree < inputs.length → (Passes inputs outputs q ↔ q = p) := by
  obtain ⟨hcount, hunique⟩ := LinearSystem.solve_eq_some (square_pointEquations hlength) h
  refine ⟨highestFirst known, hcount ▸ degree_highestFirst_lt known,
    by rw [← hcount, coefficients_highestFirst], fun q hq => ?_⟩
  have hq' := highestFirst_coefficients hq
  have hiff := hunique (coefficients inputs.length q) (length_coefficients _ _)
  rw [holds_pointEquations_iff (length_coefficients _ _), hq'] at hiff
  rw [hiff]
  constructor
  · rintro rfl
    exact hq'.symm
  · rintro rfl
    rw [← hcount, coefficients_highestFirst]

/-- **If the inputs are different, the system is solved.** -/
theorem solve_ne_none (hlength : inputs.length = outputs.length) (h : inputs.Nodup) :
    LinearSystem.solve inputs.length (pointEquations inputs outputs) ≠ none := by
  intro hnone
  obtain ⟨change, hcount, ⟨x, hx, hne⟩, hzero⟩ :=
    LinearSystem.solve_eq_none (square_pointEquations hlength) hnone
  rw [forall_pointEquations] at hzero
  -- the change is a polynomial that is zero at all inputs
  have heval : ∀ input ∈ inputs.toFinset, (highestFirst change).eval input = 0 := by
    intro input hinput
    rw [List.mem_toFinset, ← List.map_fst_zip hlength.le, List.mem_map] at hinput
    obtain ⟨point, hpoint, rfl⟩ := hinput
    rw [← leftSide_pointEquation change _ point.2, hcount]
    exact hzero point hpoint
  have hdegree : (highestFirst change).degree < inputs.toFinset.card := by
    rw [List.toFinset_card_of_nodup h, ← hcount]
    exact degree_highestFirst_lt change
  have hchange := coefficients_highestFirst change
  rw [eq_zero_of_degree_lt_of_eval_finset_eq_zero _ hdegree heval] at hchange
  rw [← hchange, coefficients, List.mem_map] at hx
  obtain ⟨k, -, rfl⟩ := hx
  exact hne (coeff_zero k)

/-- **If an input occurs twice, the system is given up.** -/
theorem solve_eq_none (hlength : inputs.length = outputs.length) (h : ¬ inputs.Nodup) :
    LinearSystem.solve inputs.length (pointEquations inputs outputs) = none := by
  rw [Option.eq_none_iff_forall_ne_some]
  intro known hknown
  obtain ⟨p, hp, -, hunique⟩ := solve_eq_some_iff hlength hknown
  -- the product of the linear factors is zero at all inputs, and of low degree
  have hnodal : (Lagrange.nodal inputs.toFinset id).degree < inputs.length := by
    rw [Lagrange.degree_nodal]
    refine Nat.cast_lt.mpr (lt_of_le_of_ne (List.toFinset_card_le _) fun heq => h ?_)
    exact Multiset.coe_nodup.mp (Multiset.toFinset_card_eq_card_iff_nodup.mp heq)
  have hpasses : Passes inputs outputs (p + Lagrange.nodal inputs.toFinset id) := by
    intro point hpoint
    have hinput : point.1 ∈ inputs.toFinset := List.mem_toFinset.mpr (List.of_mem_zip hpoint).1
    rw [eval_add, (hunique p hp).mpr rfl point hpoint]
    exact add_eq_left.mpr (Lagrange.eval_nodal_at_node (v := id) hinput)
  have heq := (hunique _ ((degree_add_le _ _).trans_lt (max_lt hp hnodal))).mp hpasses
  exact Lagrange.nodal_ne_zero (add_eq_left.mp heq)

end Solved

/-! ### The sum of the coefficients -/

theorem polynomial_coefficientTerms (name : String) (cs : List K) :
    TermSum.polynomial (List.zipWith (coefficientTerm name) cs (exponents cs.length))
      = Laurent.ofUnivariate name (highestFirst cs) := by
  induction cs with
  | nil => simp [highestFirst]
  | cons c rest ih =>
    rw [List.length_cons, exponents_succ, List.zipWith_cons_cons, TermSum.polynomial_cons,
      coefficientTerm, Int.cast_natCast, Term.polynomial_ofPower, ih, highestFirst, map_add]

end Interpolation

/-! ### The polynomial through the points -/

section Result

open Interpolation

variable {K : Type} [Field K] [LinearOrder K] [FloorRing K] [Unsettled K]

/-- A sum in the variable, of degree below the number of points, with the given outputs. -/
structure Interpolates (name : String) (inputs outputs : List K) (terms : TermSum K) : Prop where
  univariate : TermSum.Univariate name terms
  degree_le : TermSum.degree terms ≤ ((inputs.length - 1 : ℕ) : K)
  value_eq : ∀ point ∈ inputs.zip outputs, ∀ b : Bindings K, b name = some point.1 →
    (Expr.sum terms).value b = .ok point.2

variable [IsStrictOrderedRing K] {name : String} {inputs outputs : List K}

/-- The values of a sum are those of its polynomial. -/
theorem interpolates_iff {terms : TermSum K} (h : TermSum.Univariate name terms) :
    Interpolates name inputs outputs terms ↔
      TermSum.degree terms ≤ ((inputs.length - 1 : ℕ) : K) ∧
        Passes inputs outputs (TermSum.toUnivariate name terms) := by
  constructor
  · rintro ⟨-, hdegree, hvalue⟩
    refine ⟨hdegree, fun point hpoint => ?_⟩
    have heval := hvalue point hpoint _ (Bindings.only_self name point.1)
    rw [Expr.value, h.value_eq (Bindings.only_self name point.1)] at heval
    exact Except.ok.inj heval
  · rintro ⟨hdegree, hpasses⟩
    refine ⟨h, hdegree, fun point hpoint b hb => ?_⟩
    rw [Expr.value, h.value_eq hb, hpasses point hpoint]

theorem interpolates_ofUnivariate {p : K[X]} (hdegree : p.degree < inputs.length)
    (hpasses : Passes inputs outputs p) :
    Interpolates name inputs outputs (TermSum.ofUnivariate name p) := by
  have hnat : p.natDegree ≤ inputs.length - 1 := by
    by_cases hp : p = 0
    · simp [hp]
    · have := (natDegree_lt_iff_degree_lt hp).mpr hdegree
      omega
  rw [interpolates_iff (TermSum.univariate_ofUnivariate name p),
    TermSum.toUnivariate_ofUnivariate, (TermSum.reduced_ofUnivariate name p).degree_eq_natDegree
      (TermSum.polynomial_ofUnivariate name p)]
  exact ⟨Nat.cast_le.mpr hnat, hpasses⟩

/-- Every sum through the points is one for a polynomial of low degree through them. -/
theorem Interpolates.toUnivariate {terms : TermSum K}
    (h : Interpolates name inputs outputs terms) (hpoints : inputs ≠ []) :
    (TermSum.toUnivariate name terms).degree < inputs.length ∧
      Passes inputs outputs (TermSum.toUnivariate name terms) := by
  obtain ⟨hdegree, hpasses⟩ := (interpolates_iff h.univariate).mp h
  refine ⟨h.univariate.degree_toUnivariate_lt (hdegree.trans_lt ?_), hpasses⟩
  rw [Nat.cast_lt]
  have := List.length_pos_iff.mpr hpoints
  omega

omit [IsStrictOrderedRing K] in
theorem interpolate_eq (hlength : inputs.length = outputs.length) (hpoints : inputs ≠ []) :
    interpolate name inputs outputs =
      match LinearSystem.solve inputs.length (pointEquations inputs outputs) with
      | some coefficients => .ok (Expr.ofTerms
          (List.zipWith (coefficientTerm name) coefficients (exponents inputs.length)))
      | none => .error .singular := by
  have hempty : ¬ inputs.isEmpty = true := by simpa using hpoints
  rw [interpolate, if_neg (not_not.mpr hlength), if_neg hempty]
  rfl

/-- The reduced sum of the one polynomial through the points. -/
theorem interpolate_of_nodup (name : String) (hlength : inputs.length = outputs.length)
    (hpoints : inputs ≠ []) (h : inputs.Nodup) :
    ∃ p : K[X], p.degree < inputs.length ∧
      interpolate name inputs outputs = .ok (.sum (TermSum.ofUnivariate name p)) ∧
      ∀ q : K[X], q.degree < inputs.length → (Passes inputs outputs q ↔ q = p) := by
  obtain ⟨known, hknown⟩ := Option.ne_none_iff_exists'.mp (solve_ne_none hlength h)
  obtain ⟨p, hdegree, rfl, hunique⟩ := solve_eq_some_iff hlength hknown
  refine ⟨p, hdegree, ?_, hunique⟩
  have hpolynomial := polynomial_coefficientTerms name (coefficients inputs.length p)
  rw [length_coefficients, highestFirst_coefficients hdegree, ← TermSum.polynomial_reduce]
    at hpolynomial
  rw [interpolate_eq hlength hpoints, hknown]
  refine congrArg (fun terms => Except.ok (Expr.sum terms)) ?_
  exact (TermSum.reduced_reduce _).eq_of_polynomial_eq
    (TermSum.reduced_ofUnivariate name p) hpolynomial (TermSum.polynomial_ofUnivariate name p)

/-- **Interpolation gives a polynomial exactly if the inputs are different**, and then it is the
only one of its degree through the points. -/
theorem interpolate_iff_nodup (name : String) (hlength : inputs.length = outputs.length)
    (hpoints : inputs ≠ []) :
    ((∃ p, interpolate name inputs outputs = .ok p) ↔ inputs.Nodup) ∧
      (¬ inputs.Nodup → interpolate name inputs outputs = .error .singular) ∧
      ∀ p, interpolate name inputs outputs = .ok p →
        (∃ terms, p = .sum terms ∧ TermSum.Reduced terms ∧
          Interpolates name inputs outputs terms) ∧
        ∀ others : TermSum K, Interpolates name inputs outputs others →
          Expr.ofTerms others = p := by
  by_cases h : inputs.Nodup
  · obtain ⟨p, hdegree, heq, hunique⟩ := interpolate_of_nodup name hlength hpoints h
    refine ⟨⟨fun _ => h, fun _ => ⟨_, heq⟩⟩, fun hnot => absurd h hnot, fun e he => ?_⟩
    obtain rfl : Expr.sum (TermSum.ofUnivariate name p) = e := Except.ok.inj (heq ▸ he)
    refine ⟨⟨_, rfl, TermSum.reduced_ofUnivariate name p,
      interpolates_ofUnivariate hdegree ((hunique p hdegree).mpr rfl)⟩, fun others hothers => ?_⟩
    obtain ⟨hlow, hpasses⟩ := hothers.toUnivariate hpoints
    have hsame := (hunique _ hlow).mp hpasses
    have hpolynomial : TermSum.polynomial (TermSum.reduce others)
        = Laurent.ofUnivariate name p := by
      rw [TermSum.polynomial_reduce, ← hothers.univariate.ofUnivariate_toUnivariate, hsame]
    refine congrArg Expr.sum ?_
    exact (TermSum.reduced_reduce others).eq_of_polynomial_eq (TermSum.reduced_ofUnivariate name p)
      hpolynomial (TermSum.polynomial_ofUnivariate name p)
  · have heq : interpolate name inputs outputs = .error .singular := by
      rw [interpolate_eq hlength hpoints, solve_eq_none hlength h]
    refine ⟨⟨fun hok => ?_, fun hnodup => absurd hnodup h⟩, fun _ => heq, fun e he => ?_⟩
    · obtain ⟨e, he⟩ := hok
      rw [heq] at he
      cases he
    · rw [heq] at he
      cases he

/-- Three points with different inputs, and three of which two have the same input. -/
theorem interpolate_three_points :
    (∃ terms, interpolate "x" [0, 1, 2] [1, 3, (7 : ℚ)] = .ok (.sum terms) ∧
      Interpolates "x" [0, 1, 2] [1, 3, (7 : ℚ)] terms) ∧
    interpolate "x" [0, 1, 1] [1, 3, (7 : ℚ)] = .error .singular := by
  have hlength : [0, 1, (2 : ℚ)].length = [1, 3, (7 : ℚ)].length := rfl
  have hlength' : [0, 1, (1 : ℚ)].length = [1, 3, (7 : ℚ)].length := rfl
  obtain ⟨hiff, -, hresult⟩ := interpolate_iff_nodup "x" hlength (by simp)
  obtain ⟨p, hp⟩ := hiff.mpr (by decide)
  obtain ⟨⟨terms, rfl, -, hinterpolates⟩, -⟩ := hresult p hp
  refine ⟨⟨terms, hp, hinterpolates⟩, ?_⟩
  exact (interpolate_iff_nodup "x" hlength' (by simp)).2.1 (by decide)

end Result

end PolyAlgebra
