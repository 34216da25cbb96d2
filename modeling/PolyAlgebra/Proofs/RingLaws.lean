/-
The laws of commutative rings decide what trees expand to.

`RingEq` relates trees of sums, differences and products that the ring laws make equal, given
what a list of terms means: the sum of its terms, where a term is a coefficient times a
product of powers.  It says nothing of merging, sorting or canonical form.

The trees up to `RingEq` form a commutative ring, and formal polynomials map into it.  Reading
the polynomial of a tree back this way gives the class of the tree, so trees with the same
polynomial are related (`ringEq_iff`).  Together with what trees collapse into, the ring laws
are then exactly what decides whether two trees expand to the same terms.
-/
import Mathlib
import PolyAlgebra.Proofs.Expansion

namespace PolyAlgebra

variable {K : Type} [Field K] [LinearOrder K] [FloorRing K] [Unsettled K]

namespace Expr

/-! ### The laws -/

/-- The tree of a single term. -/
def single (coefficient : K) (powers : NameMap K) : Expr K :=
  .sum [Term.normalise coefficient powers]

/-- Trees that the laws of commutative rings make equal. -/
inductive RingEq : Expr K → Expr K → Prop
  | refl (a : Expr K) : RingEq a a
  | symm {a b : Expr K} (h : RingEq a b) : RingEq b a
  | trans {a b c : Expr K} (h₁ : RingEq a b) (h₂ : RingEq b c) : RingEq a c
  | add {a a' b b' : Expr K} (ha : RingEq a a') (hb : RingEq b b') :
      RingEq (.binary .add a b) (.binary .add a' b')
  | subtract {a a' b b' : Expr K} (ha : RingEq a a') (hb : RingEq b b') :
      RingEq (.binary .subtract a b) (.binary .subtract a' b')
  | multiply {a a' b b' : Expr K} (ha : RingEq a a') (hb : RingEq b b') :
      RingEq (.binary .multiply a b) (.binary .multiply a' b')
  | add_assoc (a b c : Expr K) :
      RingEq (.binary .add (.binary .add a b) c) (.binary .add a (.binary .add b c))
  | add_comm (a b : Expr K) : RingEq (.binary .add a b) (.binary .add b a)
  | zero_add (a : Expr K) : RingEq (.binary .add (.sum []) a) a
  | subtract_add (a b : Expr K) : RingEq (.binary .add (.binary .subtract a b) b) a
  | multiply_assoc (a b c : Expr K) :
      RingEq (.binary .multiply (.binary .multiply a b) c)
        (.binary .multiply a (.binary .multiply b c))
  | multiply_comm (a b : Expr K) : RingEq (.binary .multiply a b) (.binary .multiply b a)
  | one_multiply (a : Expr K) : RingEq (.binary .multiply (single 1 NameMap.empty) a) a
  | multiply_add (a b c : Expr K) :
      RingEq (.binary .multiply a (.binary .add b c))
        (.binary .add (.binary .multiply a b) (.binary .multiply a c))
  /-- A list of terms means their sum. -/
  | sum_cons (t : Term K) (rest : List (Term K)) :
      RingEq (.sum (t :: rest)) (.binary .add (.sum [t]) (.sum rest))
  /-- Multiples of the same powers add up. -/
  | like_terms (c d : K) (p : NameMap K) :
      RingEq (single (c + d) p) (.binary .add (single c p) (single d p))
  /-- In a product of terms coefficients multiply and exponents add up. -/
  | term_product (c d : K) (p q r : NameMap K)
      (h : r.toFinsupp = p.toFinsupp + q.toFinsupp) :
      RingEq (single (c * d) r) (.binary .multiply (single c p) (single d q))

theorem polynomial_single (c : K) (p : NameMap K) :
    (single c p).polynomial = AddMonoidAlgebra.single p.toFinsupp c := by
  rw [single, polynomial, TermSum.polynomial_cons, TermSum.polynomial_nil, add_zero,
    Term.polynomial_normalise]

/-- The laws hold of the polynomials that trees denote. -/
theorem polynomial_eq_of_ringEq {a b : Expr K} (h : RingEq a b) :
    a.polynomial = b.polynomial := by
  induction h with
  | refl a => rfl
  | symm _ ih => exact ih.symm
  | trans _ _ ih₁ ih₂ => exact ih₁.trans ih₂
  | add _ _ iha ihb => rw [polynomial, polynomial, iha, ihb]
  | subtract _ _ iha ihb => rw [polynomial, polynomial, iha, ihb]
  | multiply _ _ iha ihb => rw [polynomial, polynomial, iha, ihb]
  | add_assoc a b c => simp only [polynomial, add_assoc]
  | add_comm a b => simp only [polynomial, add_comm]
  | zero_add a => simp only [polynomial, TermSum.polynomial_nil, zero_add]
  | subtract_add a b => simp only [polynomial, sub_add_cancel]
  | multiply_assoc a b c => simp only [polynomial, mul_assoc]
  | multiply_comm a b => simp only [polynomial, mul_comm]
  | one_multiply a =>
    rw [polynomial, polynomial_single, NameMap.toFinsupp_empty]
    exact one_mul a.polynomial
  | multiply_add a b c => simp only [polynomial, mul_add]
  | sum_cons t rest =>
    simp only [polynomial, TermSum.polynomial_cons, TermSum.polynomial_nil, add_zero]
  | like_terms c d p =>
    rw [polynomial, polynomial_single, polynomial_single, polynomial_single,
      AddMonoidAlgebra.single_add]
  | term_product c d p q r h =>
    rw [polynomial, polynomial_single, polynomial_single, polynomial_single,
      AddMonoidAlgebra.single_mul_single, h]

/-! ### The ring of trees -/

/-- Being equal by the ring laws is an equivalence. -/
instance ringEqSetoid : Setoid (Expr K) where
  r := RingEq
  iseqv := ⟨RingEq.refl, RingEq.symm, RingEq.trans⟩

/-- Trees up to the ring laws. -/
abbrev RingTree (K : Type) [Field K] [LinearOrder K] [FloorRing K] [Unsettled K] :=
  Quotient (ringEqSetoid (K := K))

/-- The trees up to the ring laws do form a ring. -/
instance instCommRingRingTree : CommRing (RingTree K) :=
  letI : Add (RingTree K) := ⟨Quotient.map₂ (.binary .add) fun _ _ ha _ _ hb => .add ha hb⟩
  letI : Mul (RingTree K) :=
    ⟨Quotient.map₂ (.binary .multiply) fun _ _ ha _ _ hb => .multiply ha hb⟩
  letI : Neg (RingTree K) :=
    ⟨Quotient.map (.binary .subtract (.sum [])) fun _ _ ha => .subtract (.refl _) ha⟩
  letI : Zero (RingTree K) := ⟨⟦.sum []⟧⟩
  letI : One (RingTree K) := ⟨⟦single 1 NameMap.empty⟧⟩
  CommRing.ofMinimalAxioms
    (by rintro ⟨a⟩ ⟨b⟩ ⟨c⟩; exact Quotient.sound (.add_assoc a b c))
    (by rintro ⟨a⟩; exact Quotient.sound (.zero_add a))
    (by rintro ⟨a⟩; exact Quotient.sound (.subtract_add _ a))
    (by rintro ⟨a⟩ ⟨b⟩ ⟨c⟩; exact Quotient.sound (.multiply_assoc a b c))
    (by rintro ⟨a⟩ ⟨b⟩; exact Quotient.sound (.multiply_comm a b))
    (by rintro ⟨a⟩; exact Quotient.sound (.one_multiply a))
    (by rintro ⟨a⟩ ⟨b⟩ ⟨c⟩; exact Quotient.sound (.multiply_add a b c))

/-! ### Reading polynomials back -/

theorem single_mul_single (c d : K) {p q r : NameMap K}
    (h : r.toFinsupp = p.toFinsupp + q.toFinsupp) :
    (⟦single c p⟧ * ⟦single d q⟧ : RingTree K) = ⟦single (c * d) r⟧ :=
  Quotient.sound (RingEq.term_product c d p q r h).symm

/-- Numbers as trees. -/
noncomputable def constantHom : K →+* RingTree K :=
  RingHom.mk'
    { toFun := fun c => ⟦single c NameMap.empty⟧
      map_one' := rfl
      map_mul' := fun c d => (single_mul_single c d (by simp)).symm }
    fun c d => Quotient.sound (RingEq.like_terms c d NameMap.empty)

/-- Monomials as trees. -/
noncomputable def monomialHom : Multiplicative (String →₀ K) →* RingTree K where
  toFun m := ⟦single 1 (NameMap.ofFinsupp m.toAdd)⟧
  map_one' := by
    have h := single_mul_single (1 : K) 1 (p := NameMap.empty) (q := NameMap.empty)
      (r := NameMap.ofFinsupp 0) (by simp [NameMap.toFinsupp_ofFinsupp])
    rw [mul_one] at h
    exact h.symm.trans (one_mul (1 : RingTree K))
  map_mul' m n := by
    have h := single_mul_single (1 : K) 1 (p := NameMap.ofFinsupp m.toAdd)
      (q := NameMap.ofFinsupp n.toAdd)
      (r := NameMap.ofFinsupp (m * n).toAdd) (by simp [NameMap.toFinsupp_ofFinsupp])
    rw [mul_one] at h
    exact h.symm

/-- Formal polynomials as trees. -/
noncomputable def readBack : Laurent K →+* RingTree K :=
  AddMonoidAlgebra.liftNCRingHom constantHom monomialHom fun _ _ => Commute.all _ _

theorem readBack_single (c : K) (p : NameMap K) :
    readBack (AddMonoidAlgebra.single p.toFinsupp c) = ⟦single c p⟧ := by
  rw [readBack, AddMonoidAlgebra.liftNCRingHom_single]
  have h := single_mul_single c 1 (p := NameMap.empty) (q := NameMap.ofFinsupp p.toFinsupp) (r := p)
    (by rw [NameMap.toFinsupp_ofFinsupp, NameMap.toFinsupp_empty, zero_add])
  rw [mul_one] at h
  exact h

theorem readBack_sum (terms : List (Term K)) :
    readBack (TermSum.polynomial terms) = ⟦.sum terms⟧ := by
  induction terms with
  | nil => exact map_zero readBack
  | cons t rest ih =>
    rw [TermSum.polynomial_cons, map_add, ih, Term.polynomial, Term.monomial, readBack_single,
      single, Term.normalise_self]
    exact (Quotient.sound (RingEq.sum_cons t rest)).symm

/-- Reading back the polynomial of a tree gives the tree up to the ring laws. -/
theorem readBack_polynomial {e : Expr K} (he : e.IsRingTree) : readBack e.polynomial = ⟦e⟧ := by
  induction he with
  | sum terms => exact readBack_sum terms
  | add _ _ ihl ihr =>
    rw [polynomial, map_add, ihl, ihr]
    rfl
  | @subtract left right _ _ ihl ihr =>
    rw [polynomial, map_sub, ihl, ihr, sub_eq_iff_eq_add]
    exact (Quotient.sound (RingEq.subtract_add left right)).symm
  | multiply _ _ ihl ihr =>
    rw [polynomial, map_mul, ihl, ihr]
    rfl

/-- **The ring laws relate exactly the trees that denote the same polynomial.** -/
theorem ringEq_iff {e e' : Expr K} (he : e.IsRingTree) (he' : e'.IsRingTree) :
    RingEq e e' ↔ e.polynomial = e'.polynomial := by
  constructor
  · exact polynomial_eq_of_ringEq
  · intro h
    have hclass : (⟦e⟧ : RingTree K) = ⟦e'⟧ := by
      rw [← readBack_polynomial he, ← readBack_polynomial he', h]
    exact Quotient.exact hclass

/-- **Trees of sums, differences and products expand.**  Each simplifies to a single sum with
at most one term for each monomial, whose coefficients are those of the polynomial the tree
denotes.  So two trees have the same terms, zeros aside, exactly if they denote the same
polynomial, and that is exactly if the laws of commutative rings make them equal. -/
theorem trySimplify_ring_trees {e e' : Expr K} (he : e.IsRingTree) (he' : e'.IsRingTree) :
    ∃ terms terms', e.trySimplify = some (.sum terms) ∧ e'.trySimplify = some (.sum terms') ∧
      terms.Pairwise (fun t u => t.monomial ≠ u.monomial) ∧
      (∀ m, TermSum.coefficientOf m terms = e.polynomial.coeff m) ∧
      ((TermSum.nonzeroTerms terms).Perm (TermSum.nonzeroTerms terms') ↔
        e.polynomial = e'.polynomial) ∧
      ((TermSum.nonzeroTerms terms).Perm (TermSum.nonzeroTerms terms') ↔ RingEq e e') := by
  obtain ⟨terms, hterms, hcanonical, hpolynomial⟩ := collapse_of_isRingTree he
  obtain ⟨terms', hterms', hcanonical', hpolynomial'⟩ := collapse_of_isRingTree he'
  have hsame : (TermSum.nonzeroTerms terms).Perm (TermSum.nonzeroTerms terms') ↔
      e.polynomial = e'.polynomial := by
    rw [TermSum.nonzeroTerms_perm_iff hcanonical hcanonical', hpolynomial, hpolynomial']
  refine ⟨terms, terms', ?_, ?_, hcanonical.monomial_ne, fun m => ?_, hsame, ?_⟩
  · rw [trySimplify, hterms]
    rfl
  · rw [trySimplify, hterms']
    rfl
  · rw [TermSum.coefficientOf_eq hcanonical, hpolynomial]
  · rw [hsame, ringEq_iff he he']

/-- Distributivity, at a product of rational polynomials. -/
theorem trySimplify_distributes :
    let x : Expr ℚ := .sum [Term.ofName "x"]
    let y : Expr ℚ := .sum [Term.ofName "y"]
    let product : Expr ℚ := .binary .multiply x (.binary .subtract y x)
    let difference : Expr ℚ := .binary .subtract (.binary .multiply x y) (.binary .multiply x x)
    (product.IsRingTree ∧ difference.IsRingTree) ∧
    ∃ terms terms', product.trySimplify = some (.sum terms) ∧
      difference.trySimplify = some (.sum terms') ∧
      terms.Pairwise (fun t u => t.monomial ≠ u.monomial) ∧
      (∀ m, TermSum.coefficientOf m terms = product.polynomial.coeff m) ∧
      ((TermSum.nonzeroTerms terms).Perm (TermSum.nonzeroTerms terms') ↔
        product.polynomial = difference.polynomial) ∧
      ((TermSum.nonzeroTerms terms).Perm (TermSum.nonzeroTerms terms') ↔
        RingEq product difference) := by
  intro x y product difference
  have hproduct : product.IsRingTree := .multiply (.sum _) (.subtract (.sum _) (.sum _))
  have hdifference : difference.IsRingTree :=
    .subtract (.multiply (.sum _) (.sum _)) (.multiply (.sum _) (.sum _))
  exact ⟨⟨hproduct, hdifference⟩, trySimplify_ring_trees hproduct hdifference⟩

end Expr

end PolyAlgebra
