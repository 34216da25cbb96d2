/-
Turning the sign of a double.

Subtraction is written as addition of a product with -1, and a printed difference is read back
the same way.  That product is exact: the significand is multiplied by a power of two, and
rounding shifts it back.  So turning a sign twice gives the number back.
-/
import Mathlib
import PolyAlgebra.Proofs.Double.Order

namespace PolyAlgebra.Double

open Float.Model Float.Model.UnpackedFloat

/-! ### Rounding what needs no rounding -/

/-- The exponent of a regular number is the one that rounding aims at. -/
theorem targetExponent_regular {s : Sign} {m : Nat} {e : Int} {hpos : 0 < m}
    (h : Regular (.finite s m e hpos)) :
    Format.binary64.targetExponent (totalExponent m e) = e := by
  obtain ⟨hm, hlow, hhigh, hsub⟩ := h
  have hmin : Format.binary64.minExponent = -1074 := by decide
  unfold Format.targetExponent totalExponent
  rw [hmin]
  by_cases hleading : m < hiddenBit
  · have hlog := log2_lt hpos hleading
    have he := hsub hleading
    simp only [Format.mantissaBits]
    omega
  · have hlog := log2_eq (Nat.le_of_not_lt hleading) hm
    simp only [Format.mantissaBits]
    omega

theorem totalExponent_shift {m : Nat} (hpos : 0 < m) (e : Int) (k : Nat) :
    totalExponent (m * 2 ^ k) (e - k) = totalExponent m e := by
  have hlog : (m * 2 ^ k).log2 = m.log2 + k := by
    have hself := Nat.log2_self_le (n := m) (by omega)
    have hnext := Nat.lt_log2_self (n := m)
    refine (Nat.log2_eq_iff (by positivity)).mpr ⟨?_, ?_⟩
    · rw [pow_add]
      exact Nat.mul_le_mul_right _ hself
    · rw [Nat.add_right_comm, pow_add]
      exact Nat.mul_lt_mul_of_pos_right hnext (by positivity)
  unfold totalExponent
  rw [hlog]
  omega

theorem repeat_shiftRightOne (m k : Nat) :
    k.repeat ExtendedMantissa.shiftRightOne ⟨m * 2 ^ k, false, false⟩ = ⟨m, false, false⟩ := by
  induction k generalizing m with
  | zero => simp [Nat.repeat]
  | succ k ih =>
    have hdouble : m * 2 ^ (k + 1) = m * 2 * 2 ^ k := by ring
    rw [Nat.repeat, hdouble, ih (m * 2)]
    simp [ExtendedMantissa.shiftRightOne]

/-- **Rounding keeps a regular number**, also when its significand is shifted to the left. -/
theorem roundWithAccuracy_shift {s : Sign} {m : Nat} {e : Int} {hpos : 0 < m}
    (h : Regular (.finite s m e hpos)) (k : Nat) :
    roundWithAccuracy Format.binary64 s (m * 2 ^ k) (e - k) .exact = .finite s m e hpos := by
  have hshift : shiftToTargetExponent Format.binary64 (m * 2 ^ k) (e - k) .exact
      = (⟨m, false, false⟩, e) := by
    unfold shiftToTargetExponent shiftToExponent
    have hamount : (e - (e - (k : Int))).toNat = k := by omega
    rw [totalExponent_shift hpos, targetExponent_regular h]
    simp only [hamount]
    exact Prod.ext (repeat_shiftRightOne m k) (by simp)
  have hstay : shiftToTargetExponent Format.binary64 m e .exact = (⟨m, false, false⟩, e) := by
    unfold shiftToTargetExponent shiftToExponent
    rw [targetExponent_regular h]
    simp only [Int.sub_self, Int.toNat_zero]
    exact Prod.ext rfl (by simp)
  have hrounded : (⟨m, false, false⟩ : ExtendedMantissa).roundedMantissa = m := rfl
  unfold roundWithAccuracy
  simp only [hshift, hrounded, hstay]
  rw [dif_neg (by omega)]

/-! ### The sign of a product with minus one -/

theorem unpacked_one : unpacked 1 = .finite .positive hiddenBit (-52) (by decide) := rfl

theorem unpacked_neg (x : Float) : unpacked (-x) = (unpacked x).neg := by
  have hregular : Regular (unpacked x).neg := by
    have h := regular_unpacked x
    cases hu : unpacked x <;> rw [hu] at h <;> exact h
  exact unpacked_ofUnpacked hregular

theorem unpacked_mul (x y : Float) (h : Regular ((unpacked x).mul Format.binary64 (unpacked y))) :
    unpacked (x * y) = (unpacked x).mul Format.binary64 (unpacked y) :=
  unpacked_ofUnpacked h

theorem sign_mul_negative (s : Sign) : s * .negative = -s := by
  cases s <;> rfl

/-- **A product with minus one is the number with its sign turned.** -/
theorem mul_neg_one (x : Float) : x * -1 = -x := by
  have hone : unpacked (-1) = .finite .negative (2 ^ 52) (-52) (by decide) := by
    rw [unpacked_neg, unpacked_one]
    rfl
  have hmul : (unpacked x).mul Format.binary64 (unpacked (-1)) = (unpacked x).neg := by
    have hregular := regular_unpacked x
    rw [hone]
    cases hx : unpacked x with
    | notANumber => rfl
    | infinity s => cases s <;> rfl
    | zero s => cases s <;> rfl
    | finite s m e hpos =>
      rw [hx] at hregular
      show roundWithAccuracy Format.binary64 (s * .negative) (m * 2 ^ 52) (e - 52) .exact = _
      rw [sign_mul_negative]
      exact roundWithAccuracy_shift (s := -s) hregular 52
  apply unpacked_injective
  rw [unpacked_neg, ← hmul]
  refine unpacked_mul x (-1) ?_
  rw [hmul, ← unpacked_neg]
  exact regular_unpacked _

theorem neg_neg_double (x : Float) : - -x = x := by
  apply unpacked_injective
  rw [unpacked_neg, unpacked_neg]
  cases unpacked x with
  | notANumber => rfl
  | infinity s => cases s <;> rfl
  | zero s => cases s <;> rfl
  | finite s m e hpos => cases s <;> rfl

/-! ### Zero -/

/-- A double is equal to zero if it is one of the two zeros. -/
theorem beq_zero_iff (x : Float) : (x == 0) = true ↔ ∃ s, unpacked x = .zero s := by
  rw [beq_iff, unpacked_zero]
  cases unpacked x with
  | notANumber => simp [UnpackedFloat.compare]
  | infinity s => cases s <;> simp [UnpackedFloat.compare]
  | zero s => simp [UnpackedFloat.compare]
  | finite s m e hpos => cases s <;> simp [UnpackedFloat.compare]

theorem neg_beq_zero (x : Float) : (-x == 0) = (x == 0) := by
  rw [Bool.eq_iff_iff, beq_zero_iff, beq_zero_iff, unpacked_neg]
  cases unpacked x with
  | notANumber => simp [UnpackedFloat.neg]
  | infinity s => simp [UnpackedFloat.neg]
  | zero s => simp [UnpackedFloat.neg]
  | finite s m e hpos => simp [UnpackedFloat.neg]

theorem zero_add_double {x : Float} (h : (x == 0) = false) : 0 + x = x := by
  have hadd : (unpacked 0).add Format.binary64 (unpacked x) = unpacked x := by
    rw [unpacked_zero]
    cases hx : unpacked x with
    | notANumber => rfl
    | infinity s => rfl
    | zero s =>
      have hzero := (beq_zero_iff x).mpr ⟨s, hx⟩
      rw [h] at hzero
      cases hzero
    | finite s m e hpos => rfl
  show ofUnpacked ((unpacked 0).add Format.binary64 (unpacked x)) = x
  rw [hadd, ofUnpacked_unpacked]

/-! ### Finite doubles -/

theorem isFinite_iff (x : Float) : x.isFinite = true ↔
    (∃ s, unpacked x = .zero s) ∨ ∃ s m e hpos, unpacked x = .finite s m e hpos := by
  show (unpacked x).isFinite = true ↔ _
  cases unpacked x with
  | notANumber => simp [UnpackedFloat.isFinite]
  | infinity s => simp [UnpackedFloat.isFinite]
  | zero s => simp [UnpackedFloat.isFinite]
  | finite s m e hpos => simp [UnpackedFloat.isFinite, hpos]

theorem isFinite_neg (x : Float) : (-x).isFinite = x.isFinite := by
  show (unpacked (-x)).isFinite = (unpacked x).isFinite
  rw [unpacked_neg]
  cases unpacked x <;> rfl

/-- Doubles that are equal and not zero are the same. -/
theorem eq_of_beq {x y : Float} (h : (x == y) = true) (hx : (x == 0) = false) : x = y := by
  have hzero : ∀ s, unpacked x ≠ .zero s := by
    intro s hs
    have := (beq_zero_iff x).mpr ⟨s, hs⟩
    rw [hx] at this
    cases this
  obtain ⟨hdx, hdy, hrank⟩ := (beq_iff_rank x y).mp h
  exact unpacked_injective (eq_of_rank_eq hdx hdy hzero hrank)

end PolyAlgebra.Double
