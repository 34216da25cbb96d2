/-
The chain rule.

For formal polynomials, putting a polynomial in place of a variable is the additive map that
takes the power of the variable out of each monomial and multiplies by the power of the
polynomial.  It makes sense where the exponents of that one variable are natural numbers, and
the chain rule for it follows from the product rule, monomial by monomial.

Composing a sum of terms builds a tree of products and sums: one product for each term with the
variable, with a chain of copies of the replacement in it.  Whatever its shape, the tree denotes
the composed polynomial, and a derivative of it is a canonical sum for the derivative.  So both
sides of the chain rule simplify to canonical sums for the same polynomial.
-/
import Mathlib
import PolyAlgebra.Proofs.Composition
import PolyAlgebra.Proofs.Differentiation

namespace PolyAlgebra

/-! ### Formal polynomials -/

namespace Laurent

variable {K : Type} [Field K] [LinearOrder K] [FloorRing K]

/-- A polynomial in place of a variable with natural exponents. -/
noncomputable def compose (x : String) (q : Laurent K) : Laurent K →+ Laurent K :=
  (Finsupp.liftAddHom fun m : String →₀ K =>
    (AddMonoidHom.mulRight (q ^ ⌊m x⌋.toNat)).comp
      (AddMonoidAlgebra.singleAddHom (m.erase x))).comp
    AddMonoidAlgebra.coeffAddEquiv.toAddMonoidHom

theorem compose_single (x : String) (q : Laurent K) (m : String →₀ K) (c : K) :
    compose x q (AddMonoidAlgebra.single m c)
      = AddMonoidAlgebra.single (m.erase x) c * q ^ ⌊m x⌋.toNat := by
  simp [compose]

omit [LinearOrder K] [FloorRing K] in
theorem derivative_one (v : String) : derivative v (1 : Laurent K) = 0 := by
  rw [AddMonoidAlgebra.one_def, derivative_single, Finsupp.zero_apply, mul_zero,
    AddMonoidAlgebra.single_zero]

omit [LinearOrder K] [FloorRing K] in
/-- The power rule. -/
theorem derivative_pow_succ (v : String) (q : Laurent K) (n : ℕ) :
    derivative v (q ^ (n + 1)) = (n + 1 : ℕ) * q ^ n * derivative v q := by
  induction n with
  | zero => simp
  | succ n ih =>
    rw [pow_succ, derivative_mul, ih]
    push_cast
    ring

variable [IsStrictOrderedRing K]

theorem compose_single_of_natural {x : String} {m : String →₀ K} {n : ℕ} (h : m x = n)
    (q : Laurent K) (c : K) :
    compose x q (AddMonoidAlgebra.single m c) = AddMonoidAlgebra.single (m.erase x) c * q ^ n := by
  rw [compose_single, h, Int.floor_natCast, Int.toNat_natCast]

/-- A monomial without the variable stays what it is. -/
theorem compose_single_of_zero {x : String} {m : String →₀ K} (h : m x = 0) (q : Laurent K)
    (c : K) : compose x q (AddMonoidAlgebra.single m c) = AddMonoidAlgebra.single m c := by
  rw [compose_single_of_natural (by rw [h, Nat.cast_zero]), pow_zero, mul_one,
    Finsupp.erase_of_notMem_support (Finsupp.notMem_support_iff.mpr h)]

/-- What the derivative with respect to the replaced variable contributes: nothing where the
variable does not occur, and one copy of the replacement less elsewhere. -/
theorem compose_derivative_self {x : String} {m : String →₀ K} {n : ℕ} (h : m x = n)
    (q : Laurent K) (c : K) (v : String) :
    compose x q (derivative x (AddMonoidAlgebra.single m c)) * derivative v q
      = AddMonoidAlgebra.single (m.erase x) c * derivative v (q ^ n) := by
  rw [derivative_single]
  cases n with
  | zero => simp [h, derivative_one]
  | succ n =>
    have hlowered : (m - Finsupp.single x 1 : String →₀ K) x = n := by
      rw [Finsupp.sub_apply, h, Finsupp.single_eq_same, Nat.cast_succ, add_sub_cancel_right]
    have herase : (m - Finsupp.single x 1).erase x = m.erase x := by
      rw [Finsupp.erase_sub, Finsupp.erase_single, sub_zero]
    have hscale : AddMonoidAlgebra.single (m.erase x) (c * m x)
        = AddMonoidAlgebra.single (m.erase x) c * ((n + 1 : ℕ) : Laurent K) := by
      rw [h, mul_comm, mul_comm (AddMonoidAlgebra.single _ c), ← nsmul_eq_mul, ← nsmul_eq_mul,
        AddMonoidAlgebra.smul_single]
    rw [compose_single_of_natural hlowered, herase, hscale, derivative_pow_succ]
    ring

/-- What the derivative with respect to another variable contributes. -/
theorem compose_derivative_of_ne {x v : String} (hv : v ≠ x) {m : String →₀ K} {n : ℕ}
    (h : m x = n) (q : Laurent K) (c : K) :
    compose x q (derivative v (AddMonoidAlgebra.single m c))
      = q ^ n * derivative v (AddMonoidAlgebra.single (m.erase x) c) := by
  have hlowered : (m - Finsupp.single v 1 : String →₀ K) x = n := by
    rw [Finsupp.sub_apply, h, Finsupp.single_eq_of_ne hv.symm, sub_zero]
  have herase : (m - Finsupp.single v 1).erase x = m.erase x - Finsupp.single v 1 := by
    rw [Finsupp.erase_sub, Finsupp.erase_single_ne hv.symm]
  rw [derivative_single, compose_single_of_natural hlowered, herase, derivative_single,
    Finsupp.erase_ne hv, mul_comm]

/-- **The chain rule for a monomial.** -/
theorem derivative_compose_single {x : String} {m : String →₀ K} {n : ℕ} (h : m x = n)
    (q : Laurent K) (c : K) (v : String) :
    derivative v (compose x q (AddMonoidAlgebra.single m c))
      = compose x q (derivative x (AddMonoidAlgebra.single m c)) * derivative v q
        + if v = x then 0 else compose x q (derivative v (AddMonoidAlgebra.single m c)) := by
  rw [compose_derivative_self h, compose_single_of_natural h, derivative_mul]
  split
  · rename_i hv
    rw [hv, derivative_single, Finsupp.erase_same, mul_zero, AddMonoidAlgebra.single_zero,
      mul_zero]
  · rename_i hv
    rw [compose_derivative_of_ne hv h]

end Laurent

variable {K : Type} [Field K] [LinearOrder K] [FloorRing K] [Unsettled K]
  [IsStrictOrderedRing K] {x : String}

/-! ### Natural exponents of one variable -/

namespace Term

/-- The variable is raised to a natural number, zero if it does not occur. -/
def NaturalIn (t : Term K) (x : String) : Prop := ∃ n : ℕ, t.monomial x = n

omit [IsStrictOrderedRing K] in
theorem naturalIn_zero : (zero : Term K).NaturalIn x := ⟨0, by simp [zero, monomial]⟩

omit [IsStrictOrderedRing K] in
theorem NaturalIn.withCoefficient {t : Term K} (h : t.NaturalIn x) (c : K) :
    (t.withCoefficient c).NaturalIn x := by
  by_cases hc : c = 0
  · have hzero : t.withCoefficient c = zero := normalise_of_isZero (by simpa using hc) _
    rw [hzero]
    exact naturalIn_zero
  · obtain ⟨n, hn⟩ := h
    exact ⟨n, by rw [withCoefficient_of_ne t (by simpa using hc), ← hn, monomial, monomial]⟩

omit [IsStrictOrderedRing K] in
/-- A derivative that is not zero is with respect to a variable that occurs. -/
theorem monomial_ne_zero_of_differentiate {t : Term K}
    (hc : (t.differentiate x).coefficient ≠ 0) : t.monomial x ≠ 0 := by
  intro hzero
  have hpolynomial := polynomial_differentiate t x
  rw [polynomial, polynomial, Laurent.derivative_single, hzero, mul_zero,
    AddMonoidAlgebra.single_zero, AddMonoidAlgebra.single_eq_zero] at hpolynomial
  exact hc hpolynomial

omit [IsStrictOrderedRing K] in
theorem NaturalIn.differentiate {t : Term K} (h : t.NaturalIn x) (v : String) :
    (t.differentiate v).NaturalIn x := by
  by_cases hc : (t.differentiate v).coefficient = 0
  · have hzero : t.differentiate v = zero := eq_zero_of_isZero (by simpa using hc)
    rw [hzero]
    exact naturalIn_zero
  · obtain ⟨n, hn⟩ := h
    rw [NaturalIn, monomial_differentiate hc, Finsupp.sub_apply, hn]
    by_cases hv : v = x
    · subst hv
      have hne : n ≠ 0 := by
        rintro rfl
        exact monomial_ne_zero_of_differentiate hc (by rw [hn, Nat.cast_zero])
      exact ⟨n - 1, by rw [Finsupp.single_eq_same, Nat.cast_pred (Nat.pos_of_ne_zero hne)]⟩
    · exact ⟨n, by rw [Finsupp.single_eq_of_ne (Ne.symm hv), sub_zero]⟩

/-! ### Terms taken apart -/

omit [IsStrictOrderedRing K] in
theorem foldl_absorbPower_only (w : K) (entries : List (String × K)) (c : K) :
    entries.foldl (partiallyEvaluate.absorbPower (Bindings.only x w)) c
      = c * (entries.map fun e => if e.1 = x then Number.pow w e.2 else 1).prod := by
  induction entries generalizing c with
  | nil => simp
  | cons e rest ih =>
    rw [List.foldl_cons, ih, List.map_cons, List.prod_cons, ← mul_assoc]
    congr 1
    by_cases he : e.1 = x
    · simp [partiallyEvaluate.absorbPower, Bindings.only, he]
    · simp [partiallyEvaluate.absorbPower, Bindings.only, he]

/-- Binding one variable takes its power out of the monomial and into the coefficient. -/
theorem polynomial_partiallyEvaluate_only (t : Term K) (x : String) (w : K) :
    (t.partiallyEvaluate (Bindings.only x w)).polynomial
      = AddMonoidAlgebra.single (t.monomial.erase x)
          (t.coefficient * Number.pow w (t.exponent x)) := by
  have hpowers : (t.powers.filter fun name _ => (Bindings.only x w name).isNone).toFinsupp
      = t.monomial.erase x := by
    ext name
    rw [NameMap.toFinsupp_apply, NameMap.get?_filter, Finsupp.erase_apply]
    by_cases hname : name = x
    · cases t.powers.get? name <;> simp [Bindings.only, hname, Option.filter]
    · cases hget : t.powers.get? name <;>
        simp [Bindings.only, hname, Option.filter, monomial, hget]
  have hproduct : (t.powers.entries.map fun e => if e.1 = x then Number.pow w e.2 else 1).prod
      = Number.pow w (t.exponent x) := by
    rw [← NameMap.prod_toFinsupp t.powers
      (fun name exponent => if name = x then Number.pow w exponent else 1) (by simp)]
    have hsingle : t.powers.toFinsupp.prod
        (fun name exponent => if name = x then Number.pow w exponent else 1)
          = if x = x then Number.pow w (t.powers.toFinsupp x) else 1 :=
      Finsupp.prod_eq_single x (fun name _ hname => if_neg hname) (by simp)
    rw [hsingle, if_pos rfl]
    rfl
  rw [partiallyEvaluate, polynomial_normalise, hpowers, foldl_absorbPower_only, hproduct]

/-- What is left of a term and the power of the replacement make up the composed term. -/
theorem polynomial_withoutPower {t : Term K} {n : ℕ} (h : t.monomial x = n) (q : Laurent K) :
    (Expr.withoutPower t x).polynomial * q ^ n = Laurent.compose x q t.polynomial := by
  have hexponent : t.exponent x = ((n : Int) : K) := by
    rw [Int.cast_natCast]
    exact h
  have hleft : (Expr.withoutPower t x).polynomial
      = AddMonoidAlgebra.single (t.monomial.erase x) t.coefficient := by
    have hvalue := polynomial_partiallyEvaluate_only t x 1
    rw [hexponent, Exact.pow_intCast, one_zpow, mul_one] at hvalue
    exact hvalue
  rw [hleft, polynomial, Laurent.compose_single_of_natural h]

end Term

/-! ### Composed sums as polynomials -/

namespace Expr

variable {g : Expr K}

omit [IsStrictOrderedRing K] in
theorem copies_isRingTree (hg : g.IsRingTree) (count : Nat) : (copies g count).IsRingTree := by
  induction count using copies.induct with
  | case1 => exact hg
  | case2 => exact hg
  | case3 count ih => exact .multiply ih hg

omit [IsStrictOrderedRing K] in
theorem polynomial_copies (g : Expr K) (count : Nat) :
    (copies g (count + 1)).polynomial = g.polynomial ^ (count + 1) := by
  induction count with
  | zero => rw [copies, zero_add, pow_one]
  | succ count ih => rw [copies, polynomial, ih, pow_succ _ (count + 1)]

/-- A natural power is spelled out as copies. -/
theorem raise_natCast (g : Expr K) (n : ℕ) : raise g (n : K) = copies g n := by
  have hwhole : Number.whole? (n : K) = some (n : Int) := by
    exact_mod_cast Exact.whole?_intCast (K := K) (n : Int)
  rw [raise, hwhole]
  simp

/-- **A composed term denotes the composed polynomial.** -/
theorem composeTerm_denotes (hg : g.IsRingTree) {t : Term K} (ht : t.NaturalIn x)
    (hx : touches x t = true) :
    (composeTerm x g t).IsRingTree ∧
      (composeTerm x g t).polynomial = Laurent.compose x g.polynomial t.polynomial := by
  obtain ⟨n, hn⟩ := ht
  have hexponent : t.exponent x = n := hn
  obtain ⟨count, rfl⟩ : ∃ count, n = count + 1 := by
    refine Nat.exists_eq_succ_of_ne_zero ?_
    rintro rfl
    rw [touches, hexponent] at hx
    simp at hx
  rw [composeTerm, hexponent, raise_natCast]
  refine ⟨.multiply (.sum _) (copies_isRingTree hg _), ?_⟩
  rw [polynomial, polynomial_copies, ← Term.polynomial_withoutPower hn]
  congr 1
  show TermSum.polynomial (TermSum.reduce [withoutPower t x]) = _
  rw [TermSum.polynomial_reduce, TermSum.polynomial_cons, TermSum.polynomial_nil, add_zero]

/-- Composing leaves the terms without the variable as they are. -/
theorem polynomial_untouched (x : String) (q : Laurent K) (terms : TermSum K) :
    Laurent.compose x q (TermSum.polynomial (terms.filter fun t => !touches x t))
      = TermSum.polynomial (terms.filter fun t => !touches x t) := by
  rw [TermSum.polynomial, map_list_sum, List.map_map]
  refine congrArg List.sum (List.map_congr_left fun t ht => ?_)
  have hx : t.exponent x = 0 := by simpa [touches] using (List.mem_filter.mp ht).2
  exact Laurent.compose_single_of_zero hx q t.coefficient

/-- **A composed sum denotes the composed polynomial**, whatever tree it is. -/
theorem composeSum_denotes (hg : g.IsRingTree) {terms : TermSum K}
    (h : ∀ t ∈ terms, t.NaturalIn x) :
    (composeSum x g terms).IsRingTree ∧ (composeSum x g terms).polynomial
      = Laurent.compose x g.polynomial (TermSum.polynomial terms) := by
  have hsum (ts : TermSum K) : Laurent.compose x g.polynomial (TermSum.polynomial ts)
      = (ts.map fun t => Laurent.compose x g.polynomial t.polynomial).sum := by
    rw [TermSum.polynomial, map_list_sum, List.map_map]
    rfl
  rw [hsum]
  refine composeSum_additive (M := fun e p => e.IsRingTree ∧ e.polynomial = p) ?_
    (fun t => Laurent.compose x g.polynomial t.polynomial) ?_ ?_
  · rintro e p e' p' ⟨he, rfl⟩ ⟨he', rfl⟩
    exact ⟨.add he he', rfl⟩
  · rw [← hsum, polynomial_untouched]
    exact ⟨.sum _, TermSum.polynomial_reduce _⟩
  · exact fun t ht hx => composeTerm_denotes hg (h t ht) hx

/-! ### The chain rule -/

omit [IsStrictOrderedRing K] in
/-- The derivative of a sum has natural exponents again. -/
theorem differentiate_sum {terms : TermSum K} (h : ∀ t ∈ terms, t.NaturalIn x)
    (v : String) :
    ∃ d, (Expr.sum terms).differentiate v = .ok (.sum d) ∧ TermSum.Canonical d ∧
      TermSum.polynomial d = Laurent.derivative v (TermSum.polynomial terms) ∧
      ∀ t ∈ d, t.NaturalIn x := by
  obtain ⟨d, hd, hcanonical, hpolynomial⟩ := differentiate_of_isRingTree (.sum terms) v
  refine ⟨d, hd, hcanonical, hpolynomial, ?_⟩
  cases hd
  refine TermSum.reduce_forall Term.naturalIn_zero (fun _ c ht => ht.withCoefficient c)
    fun u hu => ?_
  obtain ⟨t, ht, rfl⟩ := List.mem_map.mp hu
  exact (h t ht).differentiate v

end Expr

/-- **The chain rule for sums of terms.** -/
theorem Laurent.derivative_compose {terms : TermSum K} (h : ∀ t ∈ terms, t.NaturalIn x)
    (q : Laurent K) (v : String) :
    derivative v (compose x q (TermSum.polynomial terms))
      = compose x q (derivative x (TermSum.polynomial terms)) * derivative v q
        + if v = x then 0 else compose x q (derivative v (TermSum.polynomial terms)) := by
  induction terms with
  | nil => simp
  | cons t rest ih =>
    obtain ⟨⟨n, hn⟩, hrest⟩ := List.forall_mem_cons.mp h
    have hsingle := derivative_compose_single hn q t.coefficient v
    rw [← Term.polynomial] at hsingle
    simp only [TermSum.polynomial_cons, map_add, ih hrest, hsingle]
    split <;> ring

namespace Expr

/-- **The chain rule.**  The derivative of a composed sum exists.  It has the same terms as the
composed derivative times the derivative of the replacement, plus the composed derivative with
respect to the variable itself if that is not the one replaced.  The exponents of the variable
that is replaced are natural numbers; nothing is asked of other exponents. -/
theorem differentiate_compose {f : TermSum K} {g : Expr K} {x : String}
    (hx : ∀ t ∈ f, ∃ n : ℕ, t.exponent x = n) (hg : g.IsRingTree) (v : String) :
    ∃ d dfx dfv dg, ((Expr.sum f).compose x g).differentiate v = .ok d ∧
      (Expr.sum f).differentiate x = .ok dfx ∧ (Expr.sum f).differentiate v = .ok dfv ∧
      g.differentiate v = .ok dg ∧
      ∃ terms terms', d.simplify = .sum terms ∧
        (Expr.binary .add (.binary .multiply (dfx.compose x g) dg)
          (if v = x then zero else dfv.compose x g)).simplify = .sum terms' ∧
        terms.Perm terms' := by
  obtain ⟨dfx, hdfx, -, hpx, hnx⟩ := differentiate_sum hx x
  obtain ⟨dfv, hdfv, -, hpv, hnv⟩ := differentiate_sum hx v
  obtain ⟨dg, hdg, -, hpg⟩ := differentiate_of_isRingTree hg v
  -- the three compositions are trees that denote the composed polynomials
  obtain ⟨htree, hp⟩ := composeSum_denotes hg hx
  obtain ⟨htreex, hpcx⟩ := composeSum_denotes hg hnx
  obtain ⟨htreev, hpcv⟩ := composeSum_denotes hg hnv
  obtain ⟨d, hd, -, hpd⟩ := differentiate_of_isRingTree htree v
  obtain ⟨terms, hterms, hc, hpterms⟩ := simplify_of_isRingTree (.sum d)
  -- the right side is one of these trees as well
  set right := Expr.binary .add (.binary .multiply (composeSum x g dfx) (.sum dg))
    (if v = x then zero else composeSum x g dfv) with hright
  have hrightTree : right.IsRingTree := by
    refine .add (.multiply htreex (.sum dg)) ?_
    split
    · exact .sum _
    · exact htreev
  have hrightPolynomial : right.polynomial
      = Laurent.derivative v (composeSum x g f).polynomial := by
    rw [hp, Laurent.derivative_compose hx, ← hpx, ← hpv, ← hpg, ← hpcx, ← hpcv, hright]
    split
    · simp [polynomial, zero, Term.polynomial_zero]
    · rfl
  obtain ⟨terms', hterms', hc', hpterms'⟩ := simplify_of_isRingTree hrightTree
  refine ⟨.sum d, .sum dfx, .sum dfv, .sum dg, hd, hdfx, hdfv, hdg, terms, terms', hterms,
    hterms', hc.perm_of_polynomial_eq hc' ?_⟩
  rw [hpterms, hpterms', hrightPolynomial, ← hpd, polynomial]

/-- The replacement is a product that mentions both variables.  Exponents of the variable that is
not replaced are fractional and negative. -/
theorem differentiate_compose_product :
    let f : TermSum ℚ := [Term.ofPowers 2 [("x", 2), ("y", 1 / 2)], Term.ofPowers 1 [("y", -1)]]
    let g : Expr ℚ := .binary .multiply (.sum [Term.ofName "x"])
      (.sum [Term.ofName "x", Term.ofPowers (-1) [("y", 1)]])
    ((∀ t ∈ f, ∃ n : ℕ, t.exponent "x" = n) ∧ g.IsRingTree ∧ IsStrictOrderedRing ℚ) ∧
    ∃ d dfx dfv dg, ((Expr.sum f).compose "x" g).differentiate "y" = .ok d ∧
      (Expr.sum f).differentiate "x" = .ok dfx ∧ (Expr.sum f).differentiate "y" = .ok dfv ∧
      g.differentiate "y" = .ok dg ∧
      ∃ terms terms', d.simplify = .sum terms ∧
        (Expr.binary .add (.binary .multiply (dfx.compose "x" g) dg)
          (if "y" = "x" then zero else dfv.compose "x" g)).simplify = .sum terms' ∧
        terms.Perm terms' := by
  intro f g
  have hx : ∀ t ∈ f, ∃ n : ℕ, t.exponent "x" = n := by
    refine List.forall_mem_cons.mpr ⟨⟨2, by decide +kernel⟩, List.forall_mem_singleton.mpr ⟨0, ?_⟩⟩
    decide +kernel
  have hg : g.IsRingTree := .multiply (.sum _) (.sum _)
  exact ⟨⟨hx, hg, inferInstance⟩, differentiate_compose hx hg "y"⟩

end Expr

end PolyAlgebra
