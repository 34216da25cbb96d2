/-
Sums of doubles that are defined.

Adding two doubles that are defined gives an undefined one only if both are infinite.  So a
finite double can be added to every double that is defined (`isUndefined_add`).

Merging the terms of a sum adds their coefficients up one at a time.  If these are finite, the
result may have become infinite by rounding, but it is defined, and so the canonical form of a sum
with finite coefficients is in order (`TermSum.reduce_inOrder_of_isFinite`).
-/
import Mathlib
import PolyAlgebra.Proofs.Double.Signs
import PolyAlgebra.Proofs.TermOrder

namespace PolyAlgebra

namespace Double

open Float.Model Float.Model.UnpackedFloat

/-! ### Packing -/

/-- A word is undefined only if its exponent is the largest. -/
theorem unpack_ne_notANumber {b : BitVec Format.binary64.numBits}
    (h : (unpackExponent b).toNat < 2047) : unpack Format.binary64 b ≠ .notANumber := by
  have hmax : unpackExponent b ≠ -1#11 := by
    intro heq
    rw [heq] at h
    exact absurd h (by decide)
  unfold UnpackedFloat.unpack
  simp only
  rw [if_neg hmax]
  split
  · split <;> simp
  · simp

theorem unpack_packComponents_ne_notANumber (s : Sign) {e : BitVec 11} (m : BitVec 52)
    (h : e.toNat < 2047) :
    unpack Format.binary64 (packComponents Format.binary64 s e m) ≠ .notANumber := by
  refine unpack_ne_notANumber ?_
  rw [unpackExponent_packComponents]
  exact h

/-- Packing may turn a large number into an infinite one, but not into an undefined one. -/
theorem unpack_pack_ne_notANumber {u : UnpackedFloat} (h : u ≠ .notANumber) :
    unpack Format.binary64 (pack Format.binary64 u) ≠ .notANumber := by
  cases u with
  | notANumber => exact absurd rfl h
  | infinity s =>
    rw [unpack_pack (u := .infinity s) trivial]
    exact h
  | zero s =>
    rw [unpack_pack (u := .zero s) trivial]
    exact h
  | finite s m e hpos =>
    unfold UnpackedFloat.pack
    simp only
    split
    · -- a number that is too large is packed like an infinite one
      have hinfinite := unpack_pack (u := .infinity s) trivial
      intro heq
      cases hinfinite.symm.trans heq
    · rename_i hsmall
      split
      · refine unpack_packComponents_ne_notANumber s _ ?_
        rw [BitVec.toNat_ofNat]
        refine (Nat.mod_le _ _).trans_lt ?_
        have hbits : (2 : Nat) ^ Format.binary64.exponentBits = 2048 := rfl
        omega
      · exact unpack_packComponents_ne_notANumber s _ (by decide)

/-! ### Addition -/

theorem isUndefined_ofUnpacked {u : UnpackedFloat} (h : u ≠ .notANumber) :
    Number.isUndefined (ofUnpacked u) = false :=
  (isUndefined_eq_false_iff _).mpr (unpack_pack_ne_notANumber h)

theorem round_ne_notANumber (s : Sign) (m : Nat) (e : Int) :
    round Format.binary64 s m e ≠ .notANumber := by
  unfold UnpackedFloat.round UnpackedFloat.roundWithAccuracy
  simp only
  split <;> simp

theorem normalize_ne_notANumber (m e : Int) (s : Sign) :
    normalize Format.binary64 m e s ≠ .notANumber := by
  unfold UnpackedFloat.normalize
  split
  · exact round_ne_notANumber _ _ _
  · simp
  · exact round_ne_notANumber _ _ _

/-- **A finite double can be added to everything that is defined.** -/
theorem isUndefined_add {x y : Float} (hx : Number.isUndefined x = false)
    (hy : y.isFinite = true) : Number.isUndefined (x + y) = false := by
  rw [isUndefined_eq_false_iff] at hx
  refine isUndefined_ofUnpacked (u := (unpacked x).add Format.binary64 (unpacked y)) ?_
  rcases (isFinite_iff y).mp hy with ⟨s, hy⟩ | ⟨s, m, e, hpos, hy⟩
  · rw [hy]
    cases hu : unpacked x with
    | notANumber => exact absurd hu hx
    | infinity s' => simp [UnpackedFloat.add]
    | zero s' =>
      rw [UnpackedFloat.add]
      split <;> simp
    | finite s' m' e' hpos' => simp [UnpackedFloat.add]
  · rw [hy]
    cases hu : unpacked x with
    | notANumber => exact absurd hu hx
    | infinity s' => simp [UnpackedFloat.add]
    | zero s' => simp [UnpackedFloat.add]
    | finite s' m' e' hpos' => exact normalize_ne_notANumber _ _ _

end Double

/-! ### Merging -/

namespace TermSum

variable {terms : TermSum Float}

/-- Finite coefficients are merged into defined ones. -/
theorem defined_reduce (hdefined : ∀ t ∈ terms, t.Defined)
    (hfinite : ∀ t ∈ terms, t.coefficient.isFinite = true) : ∀ t ∈ reduce terms, t.Defined := by
  refine reduce_forall_of_add Term.zero_defined (fun t ht s hs => ?_) hdefined
  exact Term.defined_normalise (Double.isUndefined_add hs.coefficient (hfinite t ht)) hs.exponents

/-- **The canonical form of a sum with finite coefficients is in order.** -/
theorem reduce_inOrder_of_isFinite (hdefined : ∀ t ∈ terms, t.Defined)
    (hfinite : ∀ t ∈ terms, t.coefficient.isFinite = true) :
    InOrder Term.canonicalOrder (reduce terms) :=
  reduce_inOrder (defined_reduce hdefined hfinite)

end TermSum

end PolyAlgebra
