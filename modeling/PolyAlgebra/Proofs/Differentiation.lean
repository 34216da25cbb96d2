/-
Derivatives of sums, differences and products.

The derivative of a formal polynomial with respect to a variable is the additive map that takes
the exponent of the variable in front and lowers it by one.  It obeys the product rule
(`derivative_mul`), for negative exponents as well.

A tree of sums, differences and products is differentiated node by node, and each node is
simplified as it is built.  What comes out is a canonical sum for the derivative of the
polynomial that the tree denotes.  Expanding the tree first and then differentiating its terms
one by one gives the same terms.
-/
import Mathlib
import PolyAlgebra.Calculus
import PolyAlgebra.Proofs.Degree
import PolyAlgebra.Proofs.Expansion

namespace PolyAlgebra

/-! ### The formal derivative -/

namespace Laurent

variable {K : Type} [Field K]

/-- The derivative with respect to a variable. -/
noncomputable def derivative (name : String) : Laurent K →+ Laurent K :=
  (Finsupp.liftAddHom fun m : String →₀ K =>
    (AddMonoidAlgebra.singleAddHom (m - Finsupp.single name 1)).comp
      (AddMonoidHom.mulRight (m name))).comp
    AddMonoidAlgebra.coeffAddEquiv.toAddMonoidHom

@[simp] theorem derivative_single (name : String) (m : String →₀ K) (c : K) :
    derivative name (AddMonoidAlgebra.single m c)
      = AddMonoidAlgebra.single (m - Finsupp.single name 1) (c * m name) := by
  simp [derivative]

/-- **The product rule.** -/
theorem derivative_mul (name : String) (p q : Laurent K) :
    derivative name (p * q) = p * derivative name q + q * derivative name p := by
  induction p using AddMonoidAlgebra.induction_linear with
  | zero => simp
  | add p p' hp hp' =>
    rw [add_mul, map_add, map_add, hp, hp']
    ring
  | single m c =>
    induction q using AddMonoidAlgebra.induction_linear with
    | zero => simp
    | add q q' hq hq' =>
      rw [mul_add, map_add, map_add, hq, hq']
      ring
    | single n d =>
      have hm : m + (n - Finsupp.single name 1) = m + n - Finsupp.single name 1 :=
        (add_sub_assoc m n _).symm
      have hn : n + (m - Finsupp.single name 1) = m + n - Finsupp.single name 1 := by
        rw [← add_sub_assoc, add_comm n m]
      rw [AddMonoidAlgebra.single_mul_single, derivative_single, derivative_single,
        derivative_single, AddMonoidAlgebra.single_mul_single, AddMonoidAlgebra.single_mul_single,
        hm, hn, ← AddMonoidAlgebra.single_add, Finsupp.add_apply]
      ring_nf

end Laurent

variable {K : Type} [Field K] [LinearOrder K] [FloorRing K] [Unsettled K]

/-! ### Terms -/

namespace Term

/-- Raising a variable that a term mentions to another power changes the exponent. -/
theorem toFinsupp_insert (powers : NameMap K) (name : String) (x y : K)
    (h : powers.get? name = some x) :
    (powers.insert name y).toFinsupp = powers.toFinsupp - Finsupp.single name (x - y) := by
  ext other
  rw [NameMap.toFinsupp_apply, NameMap.get?_insert, Finsupp.sub_apply, Finsupp.single_apply,
    NameMap.toFinsupp_apply]
  by_cases hname : other = name
  · subst hname
    simp [h]
  · rw [if_neg hname, if_neg (Ne.symm hname), sub_zero]

/-- A term that mentions a variable has a degree other than zero. -/
theorem degree_ne_zero {t : Term K} {name : String} {x : K}
    (h : t.powers.get? name = some x) : t.degree ≠ 0 := by
  have hne : t.monomial ≠ 0 := by
    intro hzero
    rw [t.monomial_eq_zero_iff.mp hzero] at h
    cases h
  obtain ⟨other, hother, heq⟩ := (Laurent.isGreatest_degreeOf hne).1
  rw [degree_eq, ← heq]
  exact hother

/-- The power rule. -/
theorem polynomial_differentiate (t : Term K) (name : String) :
    (t.differentiate name).polynomial = Laurent.derivative name t.polynomial := by
  rw [polynomial, polynomial, Laurent.derivative_single, ← polynomial, differentiate]
  cases hget : t.powers.get? name with
  | none =>
    have hzero : t.monomial name = 0 := by simp [monomial, hget]
    rw [polynomial_zero, hzero, mul_zero, AddMonoidAlgebra.single_zero]
  | some x =>
    have hx : t.monomial name = x := by simp [monomial, hget]
    have hdegree : ¬ (t.degree == 0) = true := by simpa using degree_ne_zero hget
    dsimp only
    rw [if_neg hdegree, polynomial_normalise, toFinsupp_insert t.powers name x (x - 1) hget,
      sub_sub_cancel, hx, monomial]

/-- A derivative that is not zero has the exponent lowered by one. -/
theorem monomial_differentiate {t : Term K} {name : String}
    (h : (t.differentiate name).coefficient ≠ 0) :
    (t.differentiate name).monomial = t.monomial - Finsupp.single name 1 := by
  have hpolynomial := polynomial_differentiate t name
  rw [polynomial, polynomial, Laurent.derivative_single, AddMonoidAlgebra.single_inj]
    at hpolynomial
  rcases hpolynomial with ⟨hmonomial, -⟩ | ⟨hzero, -⟩
  · exact hmonomial
  · exact absurd hzero h

end Term

/-! ### Sums -/

namespace TermSum

theorem polynomial_map_differentiate (terms : TermSum K) (name : String) :
    polynomial (terms.map (fun t => t.differentiate name))
      = Laurent.derivative name (polynomial terms) := by
  induction terms with
  | nil => simp
  | cons t rest ih =>
    rw [List.map_cons, polynomial_cons, polynomial_cons, map_add, ih,
      Term.polynomial_differentiate]

/-- Different terms have different derivatives, unless these are zero. -/
theorem merged_differentiate {terms : TermSum K} (h : Canonical terms) (name : String) :
    Merged (nonzeroTerms (terms.map (fun t => t.differentiate name))) := by
  refine ⟨fun u hu => ?_, ?_⟩
  · simpa using (List.mem_filter.mp hu).2
  · rw [nonzeroTerms, List.pairwise_filter, List.pairwise_map]
    refine h.monomial_ne.imp fun {t u} hne hzt hzu => ?_
    have hct : (t.differentiate name).coefficient ≠ 0 :=
      (Term.isZero_eq_false_iff _).mp (by simpa using hzt)
    have hcu : (u.differentiate name).coefficient ≠ 0 :=
      (Term.isZero_eq_false_iff _).mp (by simpa using hzu)
    rw [← Bool.not_eq_true, Term.hasPowersOf_iff]
    intro heq
    have hmonomial : (t.differentiate name).monomial = (u.differentiate name).monomial :=
      congrArg NameMap.toFinsupp heq
    rw [Term.monomial_differentiate hct, Term.monomial_differentiate hcu] at hmonomial
    exact hne (sub_left_injective hmonomial)

theorem nonzeroTerms_orZero (terms : TermSum K) :
    nonzeroTerms (orZero terms) = nonzeroTerms terms := by
  cases terms with
  | nil => simp [orZero, nonzeroTerms, Term.isZero_zero]
  | cons t rest => rfl

/-- A canonical sum for the derivative of a canonical sum has the derivatives of its terms. -/
theorem nonzeroTerms_perm_differentiate {terms derived : TermSum K} (h : Canonical terms)
    (hd : Canonical derived) {name : String}
    (heq : polynomial derived = Laurent.derivative name (polynomial terms)) :
    (nonzeroTerms derived).Perm
      (nonzeroTerms (terms.map (fun t => t.differentiate name))) := by
  set derivatives := terms.map (fun t => t.differentiate name)
  have hcanonical : Canonical (orZero (nonzeroTerms derivatives)) :=
    (merged_differentiate h name).canonical_orZero
  have hpolynomial : polynomial derived = polynomial (orZero (nonzeroTerms derivatives)) := by
    rw [polynomial_orZero, polynomial_nonzeroTerms, heq, ← polynomial_map_differentiate]
  have hperm := (nonzeroTerms_perm_iff hd hcanonical).mpr hpolynomial
  have hidempotent : nonzeroTerms (nonzeroTerms derivatives) = nonzeroTerms derivatives := by
    simp [nonzeroTerms]
  rwa [nonzeroTerms_orZero, hidempotent] at hperm

end TermSum

/-! ### Trees -/

namespace Expr

/-- A tree of sums, differences and products simplifies to a canonical sum for the polynomial
it denotes. -/
theorem simplify_of_isRingTree {e : Expr K} (he : e.IsRingTree) :
    ∃ terms, e.simplify = .sum terms ∧ TermSum.Canonical terms ∧
      TermSum.polynomial terms = e.polynomial := by
  obtain ⟨terms, hterms, hcanonical, hpolynomial⟩ := collapse_of_isRingTree he
  exact ⟨terms, simplify_of_collapse hterms, hcanonical, hpolynomial⟩

theorem differentiate_binary {op : Operator} {left right dleft dright : Expr K} {name : String}
    (hop : op ≠ .power) (hl : left.differentiate name = .ok dleft)
    (hr : right.differentiate name = .ok dright) :
    (Expr.binary op left right).differentiate name
      = combineDerivatives op left right dleft dright := by
  rw [differentiate, if_neg hop, hl, hr]
  rfl

/-- **A tree of sums, differences and products has a derivative**, and it is a canonical sum
for the derivative of the polynomial that the tree denotes. -/
theorem differentiate_of_isRingTree {e : Expr K} (he : e.IsRingTree) (name : String) :
    ∃ d, e.differentiate name = .ok (.sum d) ∧ TermSum.Canonical d ∧
      TermSum.polynomial d = Laurent.derivative name e.polynomial := by
  induction he with
  | sum terms =>
    refine ⟨_, rfl, TermSum.reduce_canonical _, ?_⟩
    rw [TermSum.polynomial_reduce, polynomial]
    exact TermSum.polynomial_map_differentiate terms name
  | @add left right _ _ ihl ihr =>
    obtain ⟨dl, hdl, -, hpl⟩ := ihl
    obtain ⟨dr, hdr, -, hpr⟩ := ihr
    obtain ⟨d, hd, hc, hp⟩ := simplify_of_isRingTree (.add (.sum dl) (.sum dr))
    refine ⟨d, ?_, hc, ?_⟩
    · rw [differentiate_binary (by simp) hdl hdr, combineDerivatives, hd]
    · rw [hp, polynomial, polynomial, polynomial, polynomial, hpl, hpr, map_add]
  | @subtract left right _ _ ihl ihr =>
    obtain ⟨dl, hdl, -, hpl⟩ := ihl
    obtain ⟨dr, hdr, -, hpr⟩ := ihr
    obtain ⟨d, hd, hc, hp⟩ := simplify_of_isRingTree (.subtract (.sum dl) (.sum dr))
    refine ⟨d, ?_, hc, ?_⟩
    · rw [differentiate_binary (by simp) hdl hdr, combineDerivatives, hd]
    · rw [hp, polynomial, polynomial, polynomial, polynomial, hpl, hpr, map_sub]
  | @multiply left right hleft hright ihl ihr =>
    obtain ⟨dl, hdl, -, hpl⟩ := ihl
    obtain ⟨dr, hdr, -, hpr⟩ := ihr
    -- the two products of the rule are simplified before they are added
    obtain ⟨l, hl, -, hpl'⟩ := simplify_of_isRingTree (.multiply hleft (.sum dr))
    obtain ⟨r, hr, -, hpr'⟩ := simplify_of_isRingTree (.multiply hright (.sum dl))
    obtain ⟨d, hd, hc, hp⟩ := simplify_of_isRingTree (.add (.sum l) (.sum r))
    refine ⟨d, ?_, hc, ?_⟩
    · rw [differentiate_binary (by simp) hdl hdr, combineDerivatives, hl, hr, hd]
    · rw [hp, polynomial, polynomial, polynomial, hpl', hpr', polynomial, polynomial, polynomial,
        polynomial, polynomial, hpl, hpr, Laurent.derivative_mul]

/-- **Differentiating and expanding can be exchanged.**  The derivative of a tree of sums,
differences and products is a sum of terms.  Its terms, zeros aside, are the derivatives of the
terms that the tree simplifies to, and it stands for the derivative of the polynomial that the
tree denotes. -/
theorem differentiate_ring_tree {e : Expr K} (he : e.IsRingTree) (name : String) :
    ∃ d terms, e.differentiate name = .ok (.sum d) ∧ e.simplify = .sum terms ∧
      (TermSum.nonzeroTerms d).Perm
        (TermSum.nonzeroTerms (terms.map (fun t => t.differentiate name))) ∧
      TermSum.polynomial d = Laurent.derivative name e.polynomial := by
  obtain ⟨d, hd, hcd, hpd⟩ := differentiate_of_isRingTree he name
  obtain ⟨terms, hterms, hc, hp⟩ := simplify_of_isRingTree he
  refine ⟨d, terms, hd, hterms, ?_, hpd⟩
  exact TermSum.nonzeroTerms_perm_differentiate hc hcd (by rw [hpd, hp])

/-- The product rule, with a negative exponent and a power that vanishes. -/
theorem differentiate_negative_exponent :
    let x : Expr ℚ := .sum [Term.ofName "x"]
    let y : Expr ℚ := .sum [Term.ofName "y"]
    let fraction : Expr ℚ := .sum [Term.ofPowers 1 [("x", -2), ("y", 1)]]
    let product : Expr ℚ := .binary .multiply (.binary .add x fraction) (.binary .subtract x y)
    product.IsRingTree ∧
    ∃ d terms, product.differentiate "x" = .ok (.sum d) ∧ product.simplify = .sum terms ∧
      (TermSum.nonzeroTerms d).Perm
        (TermSum.nonzeroTerms (terms.map (fun t => t.differentiate "x"))) ∧
      TermSum.polynomial d = Laurent.derivative "x" product.polynomial := by
  intro x y fraction product
  have hproduct : product.IsRingTree :=
    .multiply (.add (.sum _) (.sum _)) (.subtract (.sum _) (.sum _))
  exact ⟨hproduct, differentiate_ring_tree hproduct "x"⟩

end Expr

end PolyAlgebra
