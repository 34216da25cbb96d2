/-
A number in place of a variable.

A number can be put in place of a variable by substituting it or by composing with the constant
expression.  Substituting multiplies powers of the number into the coefficients at once; composing
spells each power out as a product of copies, which disappear when the tree is expanded.

Term by term both give the polynomial in which the number replaces the variable
(`polynomial_substitute_sum` and `polynomial_compose_sum`), and sums, differences and products pass
this on to the whole tree.  So both simplify to canonical sums for one polynomial, and it does not
matter on which way, and how late, terms became alike or vanished.
-/
import Mathlib
import PolyAlgebra.Proofs.ChainRule

namespace PolyAlgebra

/-! ### The shape of trees -/

namespace Expr

variable {α : Type} [Number α]

theorem ofNumber_isRingTree (c : α) : (ofNumber c).IsRingTree := .sum _

/-- Substituting does not change the nodes of a tree. -/
theorem substitute_isRingTree {f : Expr α} (hf : f.IsRingTree) (b : Bindings α) :
    (f.substitute b).IsRingTree := by
  induction hf with
  | sum terms => exact .sum _
  | add _ _ ihl ihr => exact .add ihl ihr
  | subtract _ _ ihl ihr => exact .subtract ihl ihr
  | multiply _ _ ihl ihr => exact .multiply ihl ihr

end Expr

/-! ### Terms -/

variable {K : Type} [Field K] [LinearOrder K] [FloorRing K] [Unsettled K]
  [IsStrictOrderedRing K] {x : String}

omit [FloorRing K] [Unsettled K] [LinearOrder K] [IsStrictOrderedRing K] in
/-- A power of a constant is a constant. -/
theorem Laurent.single_zero_pow (c : K) (n : ℕ) :
    (AddMonoidAlgebra.single 0 c : Laurent K) ^ n = AddMonoidAlgebra.single 0 (c ^ n) := by
  rw [AddMonoidAlgebra.single_pow, smul_zero]

/-- **Binding a variable replaces it by the number.** -/
theorem Term.polynomial_partiallyEvaluate_natural {t : Term K} (h : t.NaturalIn x) (c : K) :
    (t.partiallyEvaluate (Bindings.only x c)).polynomial
      = Laurent.compose x (AddMonoidAlgebra.single 0 c) t.polynomial := by
  obtain ⟨n, hn⟩ := h
  have hexponent : t.exponent x = ((n : Int) : K) := by
    rw [Int.cast_natCast]
    exact hn
  rw [polynomial_partiallyEvaluate_only, hexponent, Exact.pow_intCast, zpow_natCast, polynomial,
    Laurent.compose_single_of_natural hn, Laurent.single_zero_pow,
    AddMonoidAlgebra.single_mul_single, add_zero]

namespace Expr

omit [IsStrictOrderedRing K] in
theorem polynomial_ofNumber (c : K) : (ofNumber c).polynomial = AddMonoidAlgebra.single 0 c := by
  show TermSum.polynomial (TermSum.reduce [Term.ofNumber c]) = _
  rw [TermSum.polynomial_reduce, TermSum.polynomial_cons, TermSum.polynomial_nil, add_zero,
    Term.ofNumber, Term.polynomial_normalise, NameMap.toFinsupp_empty]

/-! ### Sums of terms -/

theorem polynomial_substitute_sum {terms : TermSum K} (h : ∀ t ∈ terms, t.NaturalIn x) (c : K) :
    ((Expr.sum terms).substitute (Bindings.only x c)).polynomial
      = Laurent.compose x (AddMonoidAlgebra.single 0 c) (TermSum.polynomial terms) := by
  show TermSum.polynomial (TermSum.reduce _) = _
  rw [TermSum.polynomial_reduce, TermSum.polynomial, TermSum.polynomial, map_list_sum, List.map_map,
    List.map_map]
  exact congrArg List.sum (List.map_congr_left fun t ht =>
    Term.polynomial_partiallyEvaluate_natural (h t ht) c)

theorem polynomial_compose_sum {terms : TermSum K} (h : ∀ t ∈ terms, t.NaturalIn x) (c : K) :
    ((Expr.sum terms).compose x (ofNumber c)).polynomial
      = Laurent.compose x (AddMonoidAlgebra.single 0 c) (TermSum.polynomial terms) := by
  rw [compose, (composeSum_denotes (ofNumber_isRingTree c) h).2, polynomial_ofNumber]

/-! ### Trees -/

/-- Composing trees of sums, differences and products gives such a tree where all powers of the
variable are spelled out. -/
theorem compose_isRingTree {f g : Expr K} (hf : f.IsRingTree) (hg : g.IsRingTree)
    (hx : ∀ t ∈ f.leafTerms, t.NaturalIn x) : (f.compose x g).IsRingTree := by
  induction hf with
  | sum terms => exact (composeSum_denotes hg hx).1
  | add _ _ ihl ihr =>
    obtain ⟨hxl, hxr⟩ := forall_leafTerms_binary.mp hx
    exact .add (ihl hxl) (ihr hxr)
  | subtract _ _ ihl ihr =>
    obtain ⟨hxl, hxr⟩ := forall_leafTerms_binary.mp hx
    exact .subtract (ihl hxl) (ihr hxr)
  | multiply _ _ ihl ihr =>
    obtain ⟨hxl, hxr⟩ := forall_leafTerms_binary.mp hx
    exact .multiply (ihl hxl) (ihr hxr)

/-- **Both ways lead to trees for the same polynomial.** -/
theorem polynomial_compose_ofNumber {f : Expr K} (hf : f.IsRingTree)
    (hx : ∀ t ∈ f.leafTerms, t.NaturalIn x) (c : K) :
    (f.compose x (ofNumber c)).polynomial = (f.substitute (Bindings.only x c)).polynomial := by
  induction hf with
  | sum terms =>
    have hterms : ∀ t ∈ terms, t.NaturalIn x := hx
    rw [polynomial_compose_sum hterms, polynomial_substitute_sum hterms]
  | add _ _ ihl ihr =>
    obtain ⟨hxl, hxr⟩ := forall_leafTerms_binary.mp hx
    rw [compose, substitute, polynomial, polynomial, ihl hxl, ihr hxr]
  | subtract _ _ ihl ihr =>
    obtain ⟨hxl, hxr⟩ := forall_leafTerms_binary.mp hx
    rw [compose, substitute, polynomial, polynomial, ihl hxl, ihr hxr]
  | multiply _ _ ihl ihr =>
    obtain ⟨hxl, hxr⟩ := forall_leafTerms_binary.mp hx
    rw [compose, substitute, polynomial, polynomial, ihl hxl, ihr hxr]

/-- **Composing with a number is substituting it.**  On a tree of sums, differences and products in
which the variable has natural exponents, both simplify to sums of terms, and these have the same
terms.  The number may be zero. -/
theorem compose_ofNumber_substitute {f : Expr K} {x : String} (hf : f.IsRingTree)
    (hx : ∀ t ∈ f.leafTerms, ∃ n : ℕ, t.exponent x = n) (c : K) :
    ∃ composed substituted, (f.compose x (ofNumber c)).simplify = .sum composed ∧
      (f.substitute (Bindings.only x c)).simplify = .sum substituted ∧
      composed.Perm substituted := by
  obtain ⟨composed, hcomposed, hc, hp⟩ := simplify_of_isRingTree
    (compose_isRingTree hf (ofNumber_isRingTree c) hx)
  obtain ⟨substituted, hsubstituted, hc', hp'⟩ := simplify_of_isRingTree
    (substitute_isRingTree hf (Bindings.only x c))
  refine ⟨composed, substituted, hcomposed, hsubstituted, hc.perm_of_polynomial_eq hc' ?_⟩
  rw [hp, hp', polynomial_compose_ofNumber hf hx]

/-- Zero in place of a variable: terms vanish at once or only after the copies of zero are
multiplied, and what is left cancels. -/
theorem compose_ofNumber_substitute_zero :
    let raw : Expr ℚ := .sum [Term.ofPowers 3 [("x", 2), ("y", 1)], Term.ofPowers 5 [("y", 1)],
      Term.ofPowers 1 [("x", 3)]]
    let f : Expr ℚ := .binary .subtract (.binary .multiply raw (.sum [Term.ofName "z"]))
      (.sum [Term.ofPowers 5 [("y", 1), ("z", 1)]])
    (f.IsRingTree ∧ (∀ t ∈ f.leafTerms, ∃ n : ℕ, t.exponent "x" = n) ∧
      IsStrictOrderedRing ℚ) ∧
    ∃ composed substituted, (f.compose "x" (ofNumber 0)).simplify = .sum composed ∧
      (f.substitute (Bindings.only "x" 0)).simplify = .sum substituted ∧
      composed.Perm substituted := by
  intro raw f
  have hf : f.IsRingTree := .subtract (.multiply (.sum _) (.sum _)) (.sum _)
  have hx : ∀ t ∈ f.leafTerms, ∃ n : ℕ, t.exponent "x" = n := by
    have hexponents : ∀ t ∈ f.leafTerms, t.exponent "x" ∈ [(2 : ℚ), 3, 0] := by decide +kernel
    intro t ht
    have ht := hexponents t ht
    simp only [List.mem_cons, List.not_mem_nil, or_false] at ht
    rcases ht with ht | ht | ht
    · exact ⟨2, ht⟩
    · exact ⟨3, ht⟩
    · exact ⟨0, ht.trans Nat.cast_zero.symm⟩
  exact ⟨⟨hf, hx, inferInstance⟩, compose_ofNumber_substitute hf hx 0⟩

end Expr

end PolyAlgebra
