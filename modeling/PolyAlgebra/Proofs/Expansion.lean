/-
Sums, differences and products always expand.

A tree built from sums of terms by adding, subtracting and multiplying denotes a polynomial,
and it collapses into a canonical sum for that polynomial.  So the coefficients it ends up
with are those of the polynomial.
-/
import Mathlib
import PolyAlgebra.Proofs.Coefficients
import PolyAlgebra.Proofs.Collapsing
import PolyAlgebra.Proofs.Leaves

namespace PolyAlgebra

/-- Built from sums of terms by adding, subtracting and multiplying. -/
inductive Expr.IsRingTree {α : Type} [Number α] : Expr α → Prop
  | sum (terms : List (Term α)) : IsRingTree (.sum terms)
  | add {left right : Expr α} (hleft : IsRingTree left) (hright : IsRingTree right) :
      IsRingTree (.binary .add left right)
  | subtract {left right : Expr α} (hleft : IsRingTree left) (hright : IsRingTree right) :
      IsRingTree (.binary .subtract left right)
  | multiply {left right : Expr α} (hleft : IsRingTree left) (hright : IsRingTree right) :
      IsRingTree (.binary .multiply left right)

variable {K : Type} [Field K] [LinearOrder K] [FloorRing K] [Unsettled K]

namespace Expr

/-- The polynomial that a tree of sums, differences and products denotes. -/
noncomputable def polynomial : Expr K → Laurent K
  | .sum terms => TermSum.polynomial terms
  | .binary .add left right => polynomial left + polynomial right
  | .binary .subtract left right => polynomial left - polynomial right
  | .binary .multiply left right => polynomial left * polynomial right
  | .binary .divide _ _ => 0
  | .binary .power _ _ => 0
  | .call _ _ => 0

/-! ### Expanding -/

/-- **A tree of sums, differences and products collapses into a canonical sum for the
polynomial it denotes.** -/
theorem collapse_of_isRingTree {e : Expr K} (he : e.IsRingTree) :
    ∃ terms, e.collapse = .ok terms ∧ TermSum.Canonical terms ∧
      TermSum.polynomial terms = e.polynomial := by
  induction he with
  | sum terms =>
    exact ⟨TermSum.reduce terms, rfl, TermSum.reduce_canonical terms,
      TermSum.polynomial_reduce terms⟩
  | @add left right _ _ ihl ihr =>
    obtain ⟨l, hl, -, hpl⟩ := ihl
    obtain ⟨r, hr, -, hpr⟩ := ihr
    refine ⟨_, collapse_binary_eq_ok_iff.mpr ⟨by simp, l, r, hl, hr, rfl⟩,
      TermSum.reduce_canonical _, ?_⟩
    rw [TermSum.polynomial_reduce, TermSum.polynomial_append, hpl, hpr, polynomial]
  | @subtract left right _ _ ihl ihr =>
    obtain ⟨l, hl, -, hpl⟩ := ihl
    obtain ⟨r, hr, -, hpr⟩ := ihr
    refine ⟨_, collapse_binary_eq_ok_iff.mpr ⟨by simp, l, r, hl, hr, rfl⟩,
      TermSum.reduce_canonical _, ?_⟩
    rw [TermSum.polynomial_reduce, TermSum.polynomial_append, TermSum.polynomial_negate, hpl,
      hpr, polynomial, sub_eq_add_neg]
  | @multiply left right _ _ ihl ihr =>
    obtain ⟨l, hl, -, hpl⟩ := ihl
    obtain ⟨r, hr, -, hpr⟩ := ihr
    refine ⟨_, collapse_binary_eq_ok_iff.mpr ⟨by simp, l, r, hl, hr, rfl⟩,
      TermSum.reduce_canonical _, ?_⟩
    rw [TermSum.polynomial_reduce, TermSum.polynomial_products, hpl, hpr, polynomial]

end Expr

end PolyAlgebra
