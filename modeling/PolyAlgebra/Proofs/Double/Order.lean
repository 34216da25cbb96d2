/-
Doubles are ordered.

Except for the undefined one, doubles are compared as triples of integers: the class of the
number from minus infinity to infinity, then the exponent, then the significand, the last two
turned round for negative numbers (`rank`).  Both zeros have one rank.  So the laws of
comparison are those of a lexicographic order.
-/
import Mathlib
import PolyAlgebra.Double.Arithmetic
import PolyAlgebra.Proofs.Comparison
import PolyAlgebra.Proofs.Double.Bits

namespace PolyAlgebra.Double

open Float.Model Float.Model.UnpackedFloat

/-- The sign, the significand and the exponent of a double, or which special value it is. -/
def unpacked (x : Float) : UnpackedFloat := x.toModel.unpack

/-- The double of an unpacked form. -/
def ofUnpacked (u : UnpackedFloat) : Float := ⟨Float.Model.pack u⟩

theorem regular_unpacked (x : Float) : Regular (unpacked x) := regular_unpack _

theorem unpacked_ofUnpacked {u : UnpackedFloat} (h : Regular u) : unpacked (ofUnpacked u) = u :=
  unpack_pack h

theorem ofUnpacked_unpacked (x : Float) : ofUnpacked (unpacked x) = x := by
  obtain ⟨⟨bits, valid⟩⟩ := x
  have hbits := congrArg UInt64.ofBitVec (pack_unpack valid)
  show Float.ofModel ⟨UInt64.ofBitVec _, _⟩ = _
  congr
  exact pack_unpack valid

/-- A double is determined by its unpacked form. -/
theorem unpacked_injective {x y : Float} (h : unpacked x = unpacked y) : x = y := by
  rw [← ofUnpacked_unpacked x, h, ofUnpacked_unpacked y]

/-! ### Ranks -/

/-- The place of a number among all, as integers to be compared one after the other. -/
def rank : UnpackedFloat → ℤ ×ₗ ℤ ×ₗ ℤ
  | .infinity .positive => toLex (2, toLex (0, 0))
  | .infinity .negative => toLex (-2, toLex (0, 0))
  | .zero _ => toLex (0, toLex (0, 0))
  | .finite .positive m e _ => toLex (1, toLex (e, (m : ℤ)))
  | .finite .negative m e _ => toLex (-1, toLex (-e, -(m : ℤ)))
  | .notANumber => toLex (0, toLex (0, 0))

theorem compare_then_eq_lt_iff (e₁ e₂ : ℤ) (m₁ m₂ : ℕ) :
    (compare e₁ e₂).then (compare m₁ m₂) = .lt ↔ e₁ < e₂ ∨ e₁ = e₂ ∧ m₁ < m₂ := by
  rw [Ordering.then_eq_lt, compare_lt_iff_lt, compare_lt_iff_lt, compare_eq_iff_eq]

theorem compare_then_eq_gt_iff (e₁ e₂ : ℤ) (m₁ m₂ : ℕ) :
    (compare e₁ e₂).then (compare m₁ m₂) = .gt ↔ e₂ < e₁ ∨ e₁ = e₂ ∧ m₂ < m₁ := by
  rw [Ordering.then_eq_gt, compare_gt_iff_gt, compare_gt_iff_gt, compare_eq_iff_eq]

/-- Comparing is comparing ranks, for less and for equal. -/
theorem compare_iff_rank {u v : UnpackedFloat} (hu : u ≠ .notANumber) (hv : v ≠ .notANumber) :
    (u.compare v = some .lt ↔ rank u < rank v) ∧ (u.compare v = some .eq ↔ rank u = rank v) := by
  cases u with
  | notANumber => exact absurd rfl hu
  | infinity s =>
    cases v with
    | notANumber => exact absurd rfl hv
    | infinity s' => cases s <;> cases s' <;> decide
    | zero s' => cases s <;> cases s' <;> decide
    | finite s' m e hm =>
      cases s <;> cases s' <;>
        simp [UnpackedFloat.compare, rank, Prod.Lex.toLex_lt_toLex]
  | zero s =>
    cases v with
    | notANumber => exact absurd rfl hv
    | infinity s' => cases s <;> cases s' <;> decide
    | zero s' => cases s <;> cases s' <;> decide
    | finite s' m e hm =>
      cases s <;> cases s' <;>
        simp [UnpackedFloat.compare, rank, Prod.Lex.toLex_lt_toLex]
  | finite s m e hm =>
    cases v with
    | notANumber => exact absurd rfl hv
    | infinity s' =>
      cases s <;> cases s' <;>
        simp [UnpackedFloat.compare, rank, Prod.Lex.toLex_lt_toLex]
    | zero s' =>
      cases s <;> cases s' <;>
        simp [UnpackedFloat.compare, rank, Prod.Lex.toLex_lt_toLex]
    | finite s' m' e' hm' =>
      cases s <;> cases s' <;>
        simp [UnpackedFloat.compare, rank, Prod.Lex.toLex_lt_toLex, Ordering.swap_eq_lt,
          Ordering.swap_eq_eq, compare_then_eq_lt_iff, compare_then_eq_gt_iff]

/-- Apart from the two zeros, numbers of one rank are the same. -/
theorem eq_of_rank_eq {u v : UnpackedFloat} (hu : u ≠ .notANumber) (hv : v ≠ .notANumber)
    (hz : ∀ s, u ≠ .zero s) (h : rank u = rank v) : u = v := by
  cases u with
  | notANumber => exact absurd rfl hu
  | zero s => exact absurd rfl (hz s)
  | infinity s =>
    cases v with
    | notANumber => exact absurd rfl hv
    | infinity s' => cases s <;> cases s' <;> simp [rank] at h ⊢
    | zero s' => cases s <;> simp [rank] at h
    | finite s' m' e' hpos' => cases s <;> cases s' <;> simp [rank] at h
  | finite s m e hpos =>
    cases v with
    | notANumber => exact absurd rfl hv
    | infinity s' => cases s <;> cases s' <;> simp [rank] at h
    | zero s' => cases s <;> simp [rank] at h
    | finite s' m' e' hpos' => cases s <;> cases s' <;> simp [rank] at h ⊢ <;> omega

/-! ### Comparing doubles -/

theorem beq_iff (x y : Float) : (x == y) = true ↔ (unpacked x).compare (unpacked y) = some .eq := by
  show ((unpacked x).compare (unpacked y) == some .eq) = true ↔ _
  exact beq_iff_eq

theorem lt_iff (x y : Float) : x < y ↔ (unpacked x).compare (unpacked y) = some .lt := by
  show decide (((unpacked x).compare (unpacked y) == some .lt) = true) = true ↔ _
  rw [decide_eq_true_iff]
  exact beq_iff_eq

theorem compare_eq_none_of_right (u : UnpackedFloat) : u.compare .notANumber = none := by
  cases u <;> rfl

theorem beq_iff_rank (x y : Float) : (x == y) = true ↔
    unpacked x ≠ .notANumber ∧ unpacked y ≠ .notANumber ∧
      rank (unpacked x) = rank (unpacked y) := by
  rw [beq_iff]
  by_cases hx : unpacked x = .notANumber
  · simp [hx, UnpackedFloat.compare]
  · by_cases hy : unpacked y = .notANumber
    · simp [hy, compare_eq_none_of_right]
    · simp [hx, hy, (compare_iff_rank hx hy).2]

theorem lt_iff_rank (x y : Float) : x < y ↔
    unpacked x ≠ .notANumber ∧ unpacked y ≠ .notANumber ∧
      rank (unpacked x) < rank (unpacked y) := by
  rw [lt_iff]
  by_cases hx : unpacked x = .notANumber
  · simp [hx, UnpackedFloat.compare]
  · by_cases hy : unpacked y = .notANumber
    · simp [hy, compare_eq_none_of_right]
    · simp [hx, hy, (compare_iff_rank hx hy).1]

theorem isUndefined_eq_false_iff (x : Float) :
    Number.isUndefined x = false ↔ unpacked x ≠ .notANumber := by
  have h := beq_iff_rank x x
  simp only [and_true, and_self_iff] at h
  rw [Number.isUndefined, Bool.not_eq_false']
  exact h

theorem unpacked_zero : unpacked 0 = .zero .positive := rfl

/-- **Doubles are ordered**, infinities and signed zeros included. -/
instance instOrderedNumberFloat : OrderedNumber Float where
  eq_symm x y := by
    rw [Bool.eq_iff_iff, beq_iff_rank, beq_iff_rank]
    constructor
    · intro h
      obtain ⟨hx, hy, h⟩ := h
      exact ⟨hy, hx, h.symm⟩
    · intro h
      obtain ⟨hy, hx, h⟩ := h
      exact ⟨hx, hy, h.symm⟩
  eq_trans x y z hxy hyz := by
    rw [beq_iff_rank] at hxy hyz ⊢
    exact ⟨hxy.1, hyz.2.1, hxy.2.2.trans hyz.2.2⟩
  lt_asymm x y hxy hyx := by
    rw [lt_iff_rank] at hxy hyx
    exact lt_asymm hxy.2.2 hyx.2.2
  lt_trans x y z hxy hyz := by
    rw [lt_iff_rank] at hxy hyz ⊢
    exact ⟨hxy.1, hyz.2.1, hxy.2.2.trans hyz.2.2⟩
  ne_of_lt x y hxy := by
    rw [lt_iff_rank] at hxy
    rw [← Bool.not_eq_true, beq_iff_rank]
    exact fun h => absurd h.2.2 (ne_of_lt hxy.2.2)
  total x y hx hy := by
    rw [isUndefined_eq_false_iff] at hx hy
    rw [lt_iff_rank, lt_iff_rank, beq_iff_rank]
    rcases lt_trichotomy (rank (unpacked x)) (rank (unpacked y)) with h | h | h
    · exact Or.inl ⟨hx, hy, h⟩
    · exact Or.inr (Or.inl ⟨hx, hy, h⟩)
    · exact Or.inr (Or.inr ⟨hy, hx, h⟩)
  zero_defined := by
    rw [isUndefined_eq_false_iff]
    show unpacked (0 : Float) ≠ _
    rw [unpacked_zero]
    exact UnpackedFloat.noConfusion

end PolyAlgebra.Double
