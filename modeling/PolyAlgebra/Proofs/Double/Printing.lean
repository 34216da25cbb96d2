/-
The text of a double stands for it.

The bits of a double are taken apart twice: into the unpacked form that arithmetic works on, and
into the magnitude that is printed.  Both give the same sign, significand and exponent.  So the
shortest decimal, which rounds to the magnitude, is read back as the double, and printing and
reading expressions over doubles needs no assumption about their numbers.
-/
import Mathlib
import PolyAlgebra.Proofs.Double.Shortest
import PolyAlgebra.Proofs.Double.Signs
import PolyAlgebra.Proofs.RoundTrip

namespace PolyAlgebra.Double

open Float.Model Float.Model.UnpackedFloat

/-! ### Taking a double apart -/

/-- Whether a sign is the minus sign. -/
def isMinus : Sign → Bool
  | .negative => true
  | .positive => false

/-- A word taken apart, by its fields. -/
theorem decodeBits_fields (s : Sign) {f n : Nat} (hf : f < 2047) (hn : n < hiddenBit) :
    decodeBits ((s.toBitVec.toNat * 2048 + f) * hiddenBit + n)
      = .finite (isMinus s) (if f = 0 then ⟨n, -1074⟩ else ⟨hiddenBit + n, (f : Int) - 1075⟩) := by
  have hs : s.toBitVec.toNat < 2 := s.toBitVec.isLt
  have hfraction : ((s.toBitVec.toNat * 2048 + f) * hiddenBit + n) % hiddenBit = n := by
    simp only [hiddenBit] at hn ⊢
    omega
  have hfield : ((s.toBitVec.toNat * 2048 + f) * hiddenBit + n) / hiddenBit % 2048 = f := by
    simp only [hiddenBit] at hn ⊢
    omega
  have hsign : ((s.toBitVec.toNat * 2048 + f) * hiddenBit + n) / (2048 * hiddenBit) % 2
      = s.toBitVec.toNat := by
    simp only [hiddenBit] at hn ⊢
    omega
  have hminus : (s.toBitVec.toNat == 1) = isMinus s := by
    cases s <;> rfl
  unfold decodeBits
  simp only [hfraction, hfield, hsign, hminus]
  rw [if_neg (by simp; omega)]
  by_cases hzero : f = 0
  · simp [hzero]
  · simp [hzero]

theorem decode_ofUnpacked (u : UnpackedFloat) :
    decode (ofUnpacked u) = decodeBits (pack Format.binary64 u).toNat := rfl

theorem decode_zero {x : Float} {s : Sign} (h : unpacked x = .zero s) :
    decode x = .finite (isMinus s) ⟨0, -1074⟩ := by
  rw [← ofUnpacked_unpacked x, h, decode_ofUnpacked]
  cases s <;> decide

/-- The magnitude that is printed is the unpacked form. -/
theorem decode_finite {x : Float} {s : Sign} {m : Nat} {e : Int} {hpos : 0 < m}
    (h : unpacked x = .finite s m e hpos) : decode x = .finite (isMinus s) ⟨m, e⟩ := by
  have hregular := regular_unpacked x
  rw [h] at hregular
  rw [← ofUnpacked_unpacked x, h, decode_ofUnpacked, toNat_pack_finite hregular]
  obtain ⟨hm, hlow, hhigh, hsub⟩ := hregular
  by_cases hleading : m < hiddenBit
  · have hword : s.toBitVec.toNat * (2048 * hiddenBit) + (e + 1074).toNat * hiddenBit + m
        = (s.toBitVec.toNat * 2048 + 0) * hiddenBit + m := by
      rw [hsub hleading]
      ring_nf
      simp
    rw [hword, decodeBits_fields s (by decide) hleading, if_pos rfl, hsub hleading]
  · have hword : s.toBitVec.toNat * (2048 * hiddenBit) + (e + 1074).toNat * hiddenBit + m
        = (s.toBitVec.toNat * 2048 + (e + 1075).toNat) * hiddenBit + (m - hiddenBit) := by
      simp only [hiddenBit] at hm hleading ⊢
      omega
    have hmagnitude : hiddenBit + (m - hiddenBit) = m := by omega
    have hexponent : ((e + 1075).toNat : Int) - 1075 = e := by omega
    rw [hword, decodeBits_fields s (by omega) (by omega), if_neg (by omega), hmagnitude, hexponent]

/-! ### Reading the shortest decimal -/

/-- A rational that rounds to the magnitude of a double is read as that double. -/
theorem nearest_of_rounds {m : Nat} {e : Int} (hpos : 0 < m) (h : Fits m e) {r : ℚ}
    (hr : Magnitude.rounds ⟨m, e⟩ r = true) :
    nearest r = ofUnpacked (.finite .positive m e hpos) := by
  have hregular : Regular (.finite .positive m e hpos) := h
  have hword : nearestBits r = (pack Format.binary64 (.finite .positive m e hpos)).toNat := by
    have hplus : Sign.positive.toBitVec.toNat = 0 := rfl
    rw [nearestBits_of_rounds h hpos hr, toNat_pack_finite hregular, hplus]
    simp only [Nat.zero_mul, Nat.zero_add]
  have hbits : UInt64.ofNat (nearestBits r)
      = UInt64.ofBitVec (pack Format.binary64 (.finite .positive m e hpos)) := by
    rw [hword]
    exact UInt64.eq_of_toBitVec_eq (BitVec.ofNat_toNat _ _)
  show Float.ofModel (Float.Model.ofBits (UInt64.ofNat (nearestBits r))) = _
  rw [hbits]
  show ofUnpacked (unpack Format.binary64 (pack Format.binary64 _)) = _
  rw [unpack_pack hregular]

theorem ofDecimal_eq (d : Decimal) : ofDecimal d = nearest (decimalValue d) := by
  unfold ofDecimal decimalValue
  simp

theorem ofDecimal_zero : ofDecimal ⟨0, 0⟩ = 0 := by
  rw [ofDecimal_eq]
  have hvalue : decimalValue ⟨0, 0⟩ = 0 := by simp [decimalValue]
  rw [hvalue, nearest, nearestBits, if_pos rfl]
  rfl

/-- **A finite double is read back from its numeral**, the sign of zero included. -/
theorem numeral_readBack {x : Float} (h : x.isFinite = true) : ∃ negative d,
    numeral x = .finite negative d ∧
      (if negative then -ofDecimal d else ofDecimal d) = x := by
  rcases (isFinite_iff x).mp h with ⟨s, hx⟩ | ⟨s, m, e, hpos, hx⟩
  · refine ⟨isMinus s, ⟨0, 0⟩, ?_, ?_⟩
    · rw [numeral, decode_zero hx]
      rfl
    · apply unpacked_injective
      rw [ofDecimal_zero, hx]
      cases s with
      | negative =>
        rw [isMinus, if_pos rfl, unpacked_neg, unpacked_zero]
        rfl
      | positive =>
        rw [isMinus, if_neg (by decide), unpacked_zero]
  · have hregular := regular_unpacked x
    rw [hx] at hregular
    refine ⟨isMinus s, shortest ⟨m, e⟩, ?_, ?_⟩
    · rw [numeral, decode_finite hx]
    · rw [ofDecimal_eq, nearest_of_rounds hpos hregular (shortest_rounds hregular hpos)]
      apply unpacked_injective
      have hplus : Regular (.finite .positive m e hpos) := hregular
      rw [hx]
      cases s with
      | negative =>
        rw [isMinus, if_pos rfl, unpacked_neg, unpacked_ofUnpacked hplus]
        rfl
      | positive =>
        rw [isMinus, if_neg (by decide), unpacked_ofUnpacked hplus]

/-- **Doubles obey what printing relies on.** -/
instance instPrintedNumberFloat : PrintedNumber Float where
  defined_of_isFinite x h := by
    rw [isUndefined_eq_false_iff]
    rcases (isFinite_iff x).mp h with ⟨s, hx⟩ | ⟨s, m, e, hpos, hx⟩
    · rw [hx]
      exact UnpackedFloat.noConfusion
    · rw [hx]
      exact UnpackedFloat.noConfusion
  eq_of_beq x y h hx := eq_of_beq h hx
  zero_add x _ hx := zero_add_double hx
  neg_isZero := neg_beq_zero
  isFinite_turn x h := by
    show (x * -1).isFinite = true
    rw [mul_neg_one, isFinite_neg]
    exact h
  turn_isZero x := by
    show (x * -1 == 0) = (x == 0)
    rw [mul_neg_one, neg_beq_zero]
  turn_turn x _ := by
    show x * -1 * -1 = x
    rw [mul_neg_one, mul_neg_one, neg_neg_double]
  readBack x h := numeral_readBack h

end PolyAlgebra.Double

namespace PolyAlgebra

/-- **The text of an expression over doubles is read back.**  Parsing succeeds for every tree of
operations over canonical sums that are not zero, and what is read collapses and simplifies to
exactly the same terms in the same order. -/
theorem Expr.parse_text_double {e : Expr Float} (h : e.Printable) :
    ∃ p, Expr.parse e.text = .ok p ∧ p.trySimplify = e.trySimplify ∧ p.simplify = e.simplify :=
  Expr.parse_text h

theorem Expr.parse_text_double_power :
    let terms : TermSum Float :=
      [.ofNumber (-0.125), .ofPowers (-1) [("x", 1)], .ofPowers 2.5 [("y", -1), ("x", 2)]]
    let leaf : Expr Float := .sum (TermSum.reduce terms)
    let e : Expr Float := .binary .power leaf (.binary .divide leaf leaf)
    e.Printable ∧ ∃ p, Expr.parse e.text = .ok p ∧ p.trySimplify = e.trySimplify ∧
      p.simplify = e.simplify := by
  intro terms leaf e
  have hnonzero : TermSum.reduce terms ≠ [Term.zero] := fun h =>
    absurd (congrArg List.length h) (by decide +kernel)
  have hcoefficients : ∀ t ∈ TermSum.reduce terms, Number.isFinite t.coefficient = true := by
    decide +kernel
  have hentries : ∀ t ∈ TermSum.reduce terms, ∀ entry ∈ t.powers.entries,
      Number.isFinite entry.2 = true ∧ (entry.1 = "x" ∨ entry.1 = "y") := by
    decide +kernel
  have hleaf : leaf.Printable := by
    refine .sum ⟨terms, rfl⟩ hnonzero hcoefficients ?_ ?_
    · intro t ht name exponent hget
      exact (hentries t ht _ ((t.powers.mem_entries_iff _ _).mpr hget)).1
    · intro t ht name exponent hget
      rcases (hentries t ht _ ((t.powers.mem_entries_iff _ _).mpr hget)).2 with h | h <;> cases h
      · exact ⟨by decide, by simp; decide⟩
      · exact ⟨by decide, by simp; decide⟩
  have h : e.Printable := .binary _ hleaf (.binary _ hleaf hleaf)
  exact ⟨h, Expr.parse_text_double h⟩

end PolyAlgebra
