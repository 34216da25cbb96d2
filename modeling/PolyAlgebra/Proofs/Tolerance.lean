/-
What counts as zero.

A sum counts as zero if each of its terms is a constant below the tolerance.  For a canonical
sum, which has at most one constant term, that means that the polynomial it stands for is a
constant below the tolerance: it is *negligible*.
-/
import Mathlib
import PolyAlgebra.Proofs.Degree

namespace PolyAlgebra

namespace Laurent

variable {K : Type} [Field K] [LinearOrder K]

/-- A constant below the tolerance. -/
def IsNegligible (p : Laurent K) : Prop :=
  ∃ c : K, |c| < 1 / 1000000 ∧ p = AddMonoidAlgebra.single 0 c

variable [IsStrictOrderedRing K]

theorem isNegligible_zero : IsNegligible (0 : Laurent K) :=
  ⟨0, by norm_num, AddMonoidAlgebra.single_zero _ |>.symm⟩

end Laurent

variable {K : Type} [Field K] [LinearOrder K] [FloorRing K] [Unsettled K]
  [IsStrictOrderedRing K]

namespace Exact

theorem abs_eq (x : K) : Number.abs x = |x| := by
  rw [Number.abs]
  split
  · rename_i h
    exact (abs_of_neg h).symm
  · rename_i h
    rw [abs_of_nonneg (not_lt.mp h)]
    split
    · rename_i hzero
      exact (beq_iff_eq.mp hzero).symm
    · rfl

omit [IsStrictOrderedRing K] in
theorem tolerance_eq : (Number.tolerance : K) = 1 / 1000000 := by
  rw [Number.tolerance, Int.cast_ofNat]

theorem isNear_zero_iff (x : K) : Number.isNear x 0 = true ↔ |x| < 1 / 1000000 := by
  rw [Number.isNear, decide_eq_true_iff, abs_eq, tolerance_eq, sub_zero]

end Exact

/-- A term that counts as zero is a constant below the tolerance. -/
theorem Term.approxEq_zero_iff (t : Term K) :
    t.approxEq Term.zero = true ↔ |t.coefficient| < 1 / 1000000 ∧ t.powers = NameMap.empty := by
  rw [← Exact.isNear_zero_iff, ← NameMap.isEmpty_iff, approxEq]
  cases hentries : t.powers.entries with
  | nil => simp [zero, NameMap.isEmpty, NameMap.names, NameMap.empty, hentries]
  | cons e rest => simp [zero, NameMap.isEmpty, hentries]

namespace TermSum

/-- **A canonical sum counts as zero if it stands for a constant below the tolerance.** -/
theorem Canonical.isZero_iff {terms : TermSum K} (h : Canonical terms) :
    isZero terms = true ↔ (polynomial terms).IsNegligible := by
  rw [isZero, List.all_eq_true]
  constructor
  · intro hall
    -- two terms without variables would have the same powers
    have hpowers : ∀ t ∈ terms, t.powers = NameMap.empty := fun t ht =>
      ((Term.approxEq_zero_iff t).mp (hall t ht)).2
    match terms, h with
    | [], _ => exact Laurent.isNegligible_zero
    | [t], _ =>
      have ht := List.mem_singleton_self t
      refine ⟨t.coefficient, ((Term.approxEq_zero_iff t).mp (hall t ht)).1, ?_⟩
      rw [polynomial_cons, polynomial_nil, add_zero, Term.polynomial, Term.monomial,
        hpowers t ht, NameMap.toFinsupp_empty]
    | t :: u :: rest, h =>
      have hdistinct := (List.pairwise_cons.mp h.distinct).1 u List.mem_cons_self
      have hlike : t.hasPowersOf u = true := (Term.hasPowersOf_iff t u).mpr
        ((hpowers t (by simp)).trans (hpowers u (by simp)).symm)
      rw [hlike] at hdistinct
      cases hdistinct
  · rintro ⟨c, hc, heq⟩ t ht
    rw [Term.approxEq_zero_iff, ← Term.monomial_eq_zero_iff]
    by_cases hzero : t.coefficient = 0
    · rcases h.zeroAlone with rfl | ⟨-, hnonzero⟩
      · rw [List.mem_singleton.mp ht]
        exact ⟨by simp [Term.zero], NameMap.toFinsupp_empty⟩
      · exact absurd hzero ((Term.isZero_eq_false_iff t).mp (hnonzero t ht))
    · have hcoeff := coeff_eq_coefficient h.monomial_ne ht
      rw [heq, AddMonoidAlgebra.coeff_single, Finsupp.single_apply] at hcoeff
      split at hcoeff
      · rename_i hmonomial
        exact ⟨hcoeff ▸ hc, hmonomial.symm⟩
      · exact absurd hcoeff.symm hzero

end TermSum

end PolyAlgebra
