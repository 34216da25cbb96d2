/-
Being near is symmetric.

Two numbers are near if the absolute value of their difference is below the tolerance, so what
matters is that a difference turned round has the same absolute value.  In exact arithmetic it
is the difference with its sign turned.  The same is true of doubles, except that the difference
of a number and itself is the positive zero either way: the exact difference is rounded, and
rounding passes over the sign, as far as into infinity.
-/
import Mathlib
import PolyAlgebra.Proofs.Double.Signs
import PolyAlgebra.Proofs.Tolerance

namespace PolyAlgebra

/-- It does not matter which of two numbers is near the other. -/
class SymmetricNearness (α : Type) [Number α] : Prop where
  isNear_symm : ∀ a b : α, Number.isNear a b = Number.isNear b a

instance instSymmetricNearnessExact {K : Type} [Field K] [LinearOrder K] [FloorRing K]
    [Unsettled K] [IsStrictOrderedRing K] : SymmetricNearness K where
  isNear_symm a b := by
    rw [Number.isNear, Number.isNear, Exact.abs_eq, Exact.abs_eq, abs_sub_comm]

namespace Double

open Float.Model Float.Model.UnpackedFloat

/-! ### The sign passes through rounding -/

theorem unpack_packComponents_neg (s : Sign) (e : BitVec 11) (m : BitVec 52) :
    unpack Format.binary64 (packComponents Format.binary64 (-s) e m)
      = (unpack Format.binary64 (packComponents Format.binary64 s e m)).neg := by
  unfold UnpackedFloat.unpack
  simp only [unpackMantissa_packComponents, unpackExponent_packComponents,
    unpackSign_packComponents, sign_ofBitVec_toBitVec]
  split
  · split <;> rfl
  · split
    · split <;> rfl
    · rfl

theorem unpack_pack_neg (u : UnpackedFloat) :
    unpack Format.binary64 (pack Format.binary64 u.neg)
      = (unpack Format.binary64 (pack Format.binary64 u)).neg := by
  cases u with
  | notANumber => rfl
  | infinity s => exact unpack_packComponents_neg s _ _
  | zero s => exact unpack_packComponents_neg s _ _
  | finite s m e hpos =>
    simp only [UnpackedFloat.neg, UnpackedFloat.pack]
    split
    · exact unpack_packComponents_neg s _ _
    · split
      · exact unpack_packComponents_neg s _ _
      · exact unpack_packComponents_neg s _ _

/-- Turning the sign before packing turns the sign of the double, also of one that overflows. -/
theorem ofUnpacked_neg (u : UnpackedFloat) : ofUnpacked u.neg = -ofUnpacked u := by
  apply unpacked_injective
  rw [unpacked_neg]
  exact unpack_pack_neg u

theorem round_neg (s : Sign) (m : Nat) (e : Int) :
    UnpackedFloat.round Format.binary64 (-s) m e
      = (UnpackedFloat.round Format.binary64 s m e).neg := by
  unfold UnpackedFloat.round UnpackedFloat.roundWithAccuracy
  dsimp only
  split <;> rfl

/-- **An exact difference turned round is rounded to the number with its sign turned**, unless
it is zero. -/
theorem normalize_neg {m : Int} (hm : m ≠ 0) (e : Int) (s : Sign) :
    normalize Format.binary64 (-m) e s = (normalize Format.binary64 m e s).neg := by
  unfold UnpackedFloat.normalize
  rcases lt_or_gt_of_ne hm with hneg | hpos
  · have hleft : compare (-m) 0 = .gt := compare_gt_iff_gt.mpr (by omega)
    rw [hleft, compare_lt_iff_lt.mpr hneg]
    exact round_neg .negative _ e
  · have hleft : compare (-m) 0 = .lt := compare_lt_iff_lt.mpr (by omega)
    rw [hleft, compare_gt_iff_gt.mpr hpos, neg_neg]
    exact round_neg .positive _ e

/-! ### Differences -/

theorem sub_swap_unpacked (u v : UnpackedFloat) :
    v.sub Format.binary64 u = u.sub Format.binary64 v ∨
      v.sub Format.binary64 u = (u.sub Format.binary64 v).neg := by
  cases u with
  | notANumber => cases v <;> exact Or.inl rfl
  | infinity s =>
    cases v with
    | notANumber => exact Or.inl rfl
    | infinity s' => cases s <;> cases s' <;> first | exact Or.inl rfl | exact Or.inr rfl
    | zero s' => exact Or.inr rfl
    | finite s' m' e' hpos' => exact Or.inr rfl
  | zero s =>
    cases v with
    | notANumber => exact Or.inl rfl
    | infinity s' => cases s' <;> exact Or.inr rfl
    | zero s' => cases s <;> cases s' <;> first | exact Or.inl rfl | exact Or.inr rfl
    | finite s' m' e' hpos' => cases s' <;> exact Or.inr rfl
  | finite s m e hpos =>
    cases v with
    | notANumber => exact Or.inl rfl
    | infinity s' => cases s' <;> exact Or.inr rfl
    | zero s' => exact Or.inr rfl
    | finite s' m' e' hpos' =>
      simp only [UnpackedFloat.sub, min_comm e' e]
      set a := s.apply _
      set b := s'.apply _
      by_cases hzero : a - b = 0
      · left
        rw [hzero, ← neg_sub, hzero, neg_zero]
      · right
        rw [← neg_sub]
        exact normalize_neg hzero _ _

theorem sub_swap (x y : Float) : y - x = x - y ∨ y - x = -(x - y) := by
  show ofUnpacked _ = ofUnpacked _ ∨ ofUnpacked _ = -ofUnpacked _
  rcases sub_swap_unpacked (unpacked x) (unpacked y) with h | h
  · exact Or.inl (congrArg ofUnpacked h)
  · exact Or.inr ((congrArg ofUnpacked h).trans (ofUnpacked_neg _))

/-! ### Absolute values -/

theorem neg_lt_zero_iff (x : Float) : -x < 0 ↔ 0 < x := by
  rw [lt_iff, lt_iff, unpacked_neg, unpacked_zero]
  cases unpacked x with
  | notANumber => simp [UnpackedFloat.compare, UnpackedFloat.neg]
  | infinity s => cases s <;> decide
  | zero s => cases s <;> decide
  | finite s m e hpos => cases s <;> simp [UnpackedFloat.compare, UnpackedFloat.neg]

theorem neg_of_isUndefined {x : Float} (h : Number.isUndefined x = true) : -x = x := by
  have hx : unpacked x = .notANumber := by
    by_contra hne
    rw [(isUndefined_eq_false_iff x).mpr hne] at h
    cases h
  apply unpacked_injective
  rw [unpacked_neg, hx]
  rfl

theorem abs_neg_double (x : Float) : Number.abs (-x) = Number.abs x := by
  have hzero : (-x == (0 : Float)) = (x == 0) := neg_beq_zero x
  unfold Number.abs
  rw [hzero]
  by_cases hneg : x < 0
  · have hne := OrderedNumber.ne_of_lt x 0 hneg
    have hpos : ¬ -x < 0 := fun h => OrderedNumber.lt_asymm x 0 hneg ((neg_lt_zero_iff x).mp h)
    simp [hneg, hpos, hne]
  · by_cases hpos : 0 < x
    · have hne : (x == 0) = false := by
        rw [OrderedNumber.eq_symm]
        exact OrderedNumber.ne_of_lt 0 x hpos
      simp [hneg, (neg_lt_zero_iff x).mpr hpos, hne, neg_neg_double]
    · have hnot : ¬ -x < 0 := fun h => hpos ((neg_lt_zero_iff x).mp h)
      cases hx : x == 0 with
      | true => simp [hneg, hnot]
      | false =>
        -- what does not compare with zero is undefined
        have hundefined : Number.isUndefined x = true := by
          by_contra hdefined
          rcases OrderedNumber.total x 0 (by simpa using hdefined) OrderedNumber.zero_defined
            with h | h | h
          · exact hneg h
          · rw [hx] at h
            cases h
          · exact hpos h
        simp [hneg, neg_of_isUndefined hundefined]

/-- **Being near is symmetric for doubles**, infinite and undefined ones included. -/
instance instSymmetricNearnessFloat : SymmetricNearness Float where
  isNear_symm x y := by
    have habs : Number.abs (y - x) = Number.abs (x - y) := by
      rcases sub_swap x y with h | h
      · rw [h]
      · rw [h, abs_neg_double]
    rw [Number.isNear, Number.isNear, habs]

end Double

end PolyAlgebra
