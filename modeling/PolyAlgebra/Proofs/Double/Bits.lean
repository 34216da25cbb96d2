/-
The bits of a double and the number they stand for.

The arithmetic of doubles is defined on an unpacked form: a sign, a significand and an
exponent, or one of the special values.  Here the unpacked form is tied to the bits, in
natural numbers.  Packing undoes unpacking for every double, and unpacking undoes packing for
the forms that unpacking gives (`Regular`).  So a double is determined by its unpacked form,
and a calculation on unpacked forms is a calculation on doubles as long as it stays regular.
-/
import Mathlib
import PolyAlgebra.Double.Value

namespace PolyAlgebra.Double

open Float.Model Float.Model.UnpackedFloat

/-! ### Fields of a word -/

theorem toNat_unpackMantissa (b : BitVec Format.binary64.numBits) :
    (unpackMantissa b).toNat = b.toNat % hiddenBit := by
  simp [unpackMantissa, hiddenBit]

theorem toNat_unpackExponent (b : BitVec Format.binary64.numBits) :
    (unpackExponent b).toNat = b.toNat / hiddenBit % 2048 := by
  simp [unpackExponent, hiddenBit, Nat.shiftRight_eq_div_pow]

theorem toNat_unpackSign (b : BitVec Format.binary64.numBits) :
    (unpackSign b).toNat = b.toNat / (2048 * hiddenBit) % 2 := by
  simp [unpackSign, hiddenBit, Nat.shiftRight_eq_div_pow]

theorem toNat_packComponents (s : Sign) (e : BitVec 11) (m : BitVec 52) :
    (packComponents Format.binary64 s e m).toNat
      = (s.toBitVec.toNat * 2048 + e.toNat) * hiddenBit + m.toNat := by
  have hm := m.isLt
  have he := e.isLt
  simp only [packComponents, BitVec.toNat_append]
  rw [← Nat.shiftLeft_add_eq_or_of_lt he, ← Nat.shiftLeft_add_eq_or_of_lt hm, Nat.shiftLeft_eq,
    Nat.shiftLeft_eq]
  rfl

theorem packComponents_fields (b : BitVec Format.binary64.numBits) :
    packComponents Format.binary64 (Sign.ofBitVec (unpackSign b)) (unpackExponent b)
      (unpackMantissa b) = b := by
  have hb : b.toNat < 2 * (2048 * hiddenBit) := b.isLt
  have hsign : ∀ v : BitVec 1, (Sign.ofBitVec v).toBitVec = v := by decide
  refine BitVec.eq_of_toNat_eq ?_
  rw [toNat_packComponents, hsign, toNat_unpackSign, toNat_unpackExponent, toNat_unpackMantissa]
  simp only [hiddenBit] at hb ⊢
  omega

theorem sign_ofBitVec_toBitVec (s : Sign) : Sign.ofBitVec s.toBitVec = s := by
  cases s <;> rfl

theorem unpackSign_packComponents (s : Sign) (e : BitVec 11) (m : BitVec 52) :
    unpackSign (packComponents Format.binary64 s e m) = s.toBitVec := by
  have hs := s.toBitVec.isLt
  have he := e.isLt
  have hm := m.isLt
  refine BitVec.eq_of_toNat_eq ?_
  rw [toNat_unpackSign, toNat_packComponents]
  simp only [hiddenBit]
  omega

/-! ### Packing and unpacking -/

/-- The significands and exponents of doubles: a significand is below 2 to the power 53, and it
has its leading bit unless the exponent is the least one. -/
def Fits (m : Nat) (e : Int) : Prop :=
  m < 2 * hiddenBit ∧ -1074 ≤ e ∧ e ≤ 971 ∧ (m < hiddenBit → e = -1074)

/-- The unpacked forms of doubles. -/
def Regular : UnpackedFloat → Prop
  | .finite _ m e _ => Fits m e
  | .notANumber => True
  | .infinity _ => True
  | .zero _ => True

theorem toNat_append_one (m : BitVec 52) : (1#1 ++ m).toNat = hiddenBit + m.toNat := by
  rw [BitVec.toNat_append, ← Nat.shiftLeft_add_eq_or_of_lt m.isLt]
  rfl

theorem exponentBias_eq : Format.binary64.exponentBias = 1023 := by decide

theorem regular_unpack (b : BitVec Format.binary64.numBits) :
    Regular (unpack Format.binary64 b) := by
  have hm : (unpackMantissa b).toNat < hiddenBit := (unpackMantissa b).isLt
  have he : (unpackExponent b).toNat < 2048 := (unpackExponent b).isLt
  unfold UnpackedFloat.unpack
  simp only [exponentBias_eq]
  split
  · split
    · trivial
    · trivial
  · rename_i hne
    split
    · rename_i hzero
      split
      · trivial
      · rw [hzero]
        simp only [Regular, Fits, hiddenBit] at hm ⊢
        norm_num
        omega
    · rename_i hzero
      have hmax : (unpackExponent b).toNat ≠ 2047 := fun h => hne (BitVec.eq_of_toNat_eq h)
      have hpos : (unpackExponent b).toNat ≠ 0 := fun h => hzero (BitVec.eq_of_toNat_eq h)
      simp only [Regular, Fits, toNat_append_one, hiddenBit] at hm ⊢
      norm_num
      omega

theorem log2_eq {m : Nat} (h : hiddenBit ≤ m) (h' : m < 2 * hiddenBit) : m.log2 = 52 :=
  (Nat.log2_eq_iff (by simp only [hiddenBit] at h; omega)).mpr ⟨h, h'⟩

theorem log2_lt {m : Nat} (hpos : 0 < m) (h : m < hiddenBit) : m.log2 < 52 :=
  (Nat.log2_lt (by omega)).mpr h

/-- The packed form of a regular number, by its fields. -/
theorem pack_finite {s : Sign} {m : Nat} {e : Int} {hpos : 0 < m}
    (h : Regular (.finite s m e hpos)) :
    pack Format.binary64 (.finite s m e hpos)
      = packComponents Format.binary64 s
          (BitVec.ofNat 11 (if m < hiddenBit then 0 else (e + 1075).toNat))
          (BitVec.ofNat 52 m) := by
  obtain ⟨hm, hlow, hhigh, hsub⟩ := h
  have hbiased : ((e + (1023 : Nat) + (52 : Nat) : Int)).toNat = (e + 1075).toNat := by omega
  unfold UnpackedFloat.pack
  simp only [exponentBias_eq, hbiased]
  rw [if_neg (by norm_num; omega)]
  by_cases hleading : m < hiddenBit
  · have hlog := log2_lt hpos hleading
    rw [if_pos hleading, if_neg (by simp only [Format.mantissaBits]; omega)]
  · have hlog := log2_eq (Nat.le_of_not_lt hleading) hm
    rw [if_neg hleading, if_pos (by rw [hlog]; rfl)]

/-- The word of a regular number: the sign, then the exponent, counted from the least one, and
the significand, whose leading bit carries into the exponent. -/
theorem toNat_pack_finite {s : Sign} {m : Nat} {e : Int} {hpos : 0 < m}
    (h : Regular (.finite s m e hpos)) :
    (pack Format.binary64 (.finite s m e hpos)).toNat
      = s.toBitVec.toNat * (2048 * hiddenBit) + (e + 1074).toNat * hiddenBit + m := by
  rw [pack_finite h, toNat_packComponents, BitVec.toNat_ofNat, BitVec.toNat_ofNat]
  obtain ⟨hm, hlow, hhigh, hsub⟩ := h
  by_cases hleading : m < hiddenBit
  · have he := hsub hleading
    rw [if_pos hleading]
    simp only [hiddenBit] at hleading ⊢
    omega
  · rw [if_neg hleading]
    simp only [hiddenBit] at hm hleading ⊢
    omega

/-- **Unpacking undoes packing.** -/
theorem unpack_pack {u : UnpackedFloat} (h : Regular u) :
    unpack Format.binary64 (pack Format.binary64 u) = u := by
  cases u with
  | notANumber => rfl
  | infinity s => cases s <;> rfl
  | zero s => cases s <;> rfl
  | finite s m e hpos =>
    rw [pack_finite h]
    obtain ⟨hm, hlow, hhigh, hsub⟩ := h
    unfold UnpackedFloat.unpack
    simp only [unpackMantissa_packComponents, unpackExponent_packComponents,
      unpackSign_packComponents, sign_ofBitVec_toBitVec, exponentBias_eq]
    by_cases hleading : m < hiddenBit
    · have hmantissa : (BitVec.ofNat 52 m).toNat = m := by
        rw [BitVec.toNat_ofNat]
        exact Nat.mod_eq_of_lt hleading
      have hne : ¬ BitVec.ofNat 52 m = 0#52 := by
        intro hzero
        rw [hzero] at hmantissa
        exact absurd hmantissa (by simp; omega)
      rw [if_pos hleading, if_neg (by decide), if_pos rfl, dif_neg hne]
      simp only [hmantissa, hsub hleading]
      rfl
    · have hmantissa : (BitVec.ofNat 52 m).toNat = m - hiddenBit := by
        rw [BitVec.toNat_ofNat]
        simp only [hiddenBit] at hm hleading ⊢
        omega
      have hexponent : (BitVec.ofNat 11 (e + 1075).toNat).toNat = (e + 1075).toNat := by
        rw [BitVec.toNat_ofNat]
        exact Nat.mod_eq_of_lt (by omega)
      have hmax : ¬ BitVec.ofNat 11 (e + 1075).toNat = -1#11 := by
        intro h
        rw [h] at hexponent
        exact absurd hexponent (by norm_num; omega)
      have hmin : ¬ BitVec.ofNat 11 (e + 1075).toNat = 0#11 := by
        intro h
        rw [h] at hexponent
        exact absurd hexponent (by norm_num; omega)
      rw [if_neg hleading, if_neg hmax, if_neg hmin]
      simp only [toNat_append_one, hmantissa, hexponent, UnpackedFloat.finite.injEq, true_and]
      constructor
      · omega
      · push_cast
        omega

/-- **Packing undoes unpacking.** -/
theorem pack_unpack {b : BitVec Format.binary64.numBits} (h : Format.binary64.Valid b) :
    pack Format.binary64 (unpack Format.binary64 b) = b := by
  have hregular := regular_unpack b
  have hfields := packComponents_fields b
  unfold UnpackedFloat.unpack at hregular ⊢
  simp only [exponentBias_eq] at hregular ⊢
  split
  · rename_i hmax
    split
    · rename_i hzero
      rw [hmax, hzero] at hfields
      exact hfields
    · rename_i hne
      exact (h.eq_packedNaN hmax hne).symm
  · rename_i hmax
    rw [if_neg hmax] at hregular
    split
    · rename_i hmin
      rw [if_pos hmin] at hregular
      split
      · rename_i hzero
        rw [hmin, hzero] at hfields
        exact hfields
      · rename_i hne
        rw [dif_neg hne] at hregular
        have hlt : (unpackMantissa b).toNat < hiddenBit := (unpackMantissa b).isLt
        rw [pack_finite hregular, if_pos hlt, BitVec.ofNat_toNat, BitVec.setWidth_eq]
        rw [hmin] at hfields
        exact hfields
    · rename_i hmin
      rw [if_neg hmin] at hregular
      have hlt : ¬ (1#1 ++ unpackMantissa b).toNat < hiddenBit := by
        rw [toNat_append_one]
        omega
      have hexponent : (((unpackExponent b).toNat : Int) - ((1023 : Nat) + (52 : Nat)) + 1075).toNat
          = (unpackExponent b).toNat := by omega
      have hmantissa : BitVec.ofNat 52 (hiddenBit + (unpackMantissa b).toNat)
          = unpackMantissa b := by
        have hlt : (unpackMantissa b).toNat < hiddenBit := (unpackMantissa b).isLt
        refine BitVec.eq_of_toNat_eq ?_
        rw [BitVec.toNat_ofNat]
        show (hiddenBit + (unpackMantissa b).toNat) % hiddenBit = _
        rw [Nat.add_mod_left, Nat.mod_eq_of_lt hlt]
      rw [pack_finite hregular, if_neg hlt, hexponent, toNat_append_one, hmantissa,
        BitVec.ofNat_toNat, BitVec.setWidth_eq]
      exact hfields

end PolyAlgebra.Double
