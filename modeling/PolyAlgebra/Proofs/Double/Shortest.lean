/-
The shortest decimal of a double rounds to it.

Seventeen digits are enough: the last grid that `shortest` tries is finer than the interval of
rationals that round to the magnitude, so one of the two neighbours of the value lies in it
(`lt_width`, `neighbour?_isSome`).  A neighbour is only taken if it rounds to the magnitude, so
whatever the number of digits at which the search ends, the decimal rounds to the magnitude.
-/
import Mathlib
import PolyAlgebra.Double.Shortest
import PolyAlgebra.Proofs.Double.Rounding

namespace PolyAlgebra.Double

/-- The rational number that a decimal is. -/
def decimalValue (d : Decimal) : ℚ := (d.digits : ℚ) / 10 ^ d.places

theorem powerOfTen_eq (e : Int) : powerOfTen e = (10 : ℚ) ^ e := integerPower_eq 10 e

/-! ### The leading digit -/

theorem digitCount_le_iff {n k : Nat} (h : 0 < k) : digitCount n ≤ k ↔ n < 10 ^ k :=
  Nat.length_toDigits_le_iff (by decide) h

theorem digitCount_pos (n : Nat) : 0 < digitCount n := Nat.length_toDigits_pos

theorem pow_digitCount_le {n : Nat} (h : 0 < n) : 10 ^ (digitCount n - 1) ≤ n := by
  by_cases hone : digitCount n = 1
  · rw [hone]
    exact h
  · have hpos := digitCount_pos n
    have hnot := (digitCount_le_iff (n := n) (show 0 < digitCount n - 1 by omega)).not
    exact Nat.le_of_not_lt (hnot.mp (by omega))

theorem lt_pow_digitCount (n : Nat) : n < 10 ^ digitCount n :=
  (digitCount_le_iff (digitCount_pos n)).mp le_rfl

/-- The decimal exponent does not lie beyond the leading digit. -/
theorem decimalExponent_le {r : ℚ} (hr : 0 < r) : (10 : ℚ) ^ decimalExponent r ≤ r := by
  unfold decimalExponent
  split
  · rename_i hone
    obtain ⟨hlow, hhigh⟩ := floor_toNat_bounds hr.le
    have hpos : 0 < r.floor.toNat := by
      have hcast : (0 : ℚ) < r.floor.toNat := by linarith
      exact_mod_cast hcast
    have hpow := pow_digitCount_le hpos
    have hcount := digitCount_pos r.floor.toNat
    have hexponent : ((digitCount r.floor.toNat : Int) - 1)
        = ((digitCount r.floor.toNat - 1 : Nat) : Int) := by omega
    rw [hexponent, zpow_natCast]
    refine le_trans ?_ hlow
    exact_mod_cast hpow
  · have hlt := lt_pow_digitCount ((1 / r).ceil.toNat - 1)
    have hceil : 1 / r ≤ (((1 / r).ceil.toNat : Nat) : ℚ) := by
      refine Rat.le_ceil.trans ?_
      have hnat : (1 / r).ceil ≤ ((1 / r).ceil.toNat : Int) := Int.self_le_toNat _
      exact_mod_cast hnat
    have hpow : 1 / r ≤ 10 ^ digitCount ((1 / r).ceil.toNat - 1) := by
      refine hceil.trans ?_
      exact_mod_cast (show (1 / r).ceil.toNat ≤ 10 ^ digitCount ((1 / r).ceil.toNat - 1) by omega)
    rw [zpow_neg, zpow_natCast]
    rw [div_le_iff₀ hr] at hpow
    rw [inv_le_iff_one_le_mul₀ (by positivity)]
    linarith

/-! ### Neighbours -/

theorem Magnitude.rounds_of_between {m : Magnitude} {r : ℚ} (hlow : m.lower < r)
    (hhigh : r < m.upper) : m.rounds r = true := by
  unfold Magnitude.rounds
  split
  · simp [hlow.le, hhigh.le]
  · simp [hlow, hhigh]

theorem Magnitude.lower_lt (m : Magnitude) : m.lower < m.value := by
  unfold Magnitude.lower
  simp only [powerOfTwo_eq]
  split
  · exact sub_lt_self _ (two_zpow_pos _)
  · exact sub_lt_self _ (two_zpow_pos _)

theorem Magnitude.lt_upper (m : Magnitude) : m.value < m.upper := by
  unfold Magnitude.upper
  rw [powerOfTwo_eq]
  exact lt_add_of_pos_right _ (two_zpow_pos _)

/-- A neighbour is only taken if it rounds to the magnitude. -/
theorem neighbour?_rounds {m : Magnitude} {step : ℚ} {k : Nat} (h : neighbour? m step = some k) :
    m.rounds (k * step) = true := by
  unfold neighbour? at h
  simp only at h
  split at h
  · cases h
  · rename_i hbelow habove
    obtain rfl := Option.some.inj h
    exact hbelow
  · rename_i hbelow habove
    obtain rfl := Option.some.inj h
    exact habove
  · rename_i hbelow habove
    obtain rfl := Option.some.inj h
    split
    · exact hbelow
    · exact habove

/-- On a grid finer than the interval, a neighbour is found. -/
theorem neighbour?_isSome {m : Magnitude} {step : ℚ} (hstep : 0 < step)
    (hfine : step < m.upper - m.lower) : (neighbour? m step).isSome = true := by
  have hvalue : 0 ≤ m.value := by
    rw [Magnitude.value, powerOfTwo_eq]
    have := two_zpow_pos m.exponent
    positivity
  obtain ⟨hbelow, habove⟩ := floor_toNat_bounds (div_nonneg hvalue hstep.le)
  rw [le_div_iff₀ hstep] at hbelow
  rw [div_lt_iff₀ hstep] at habove
  unfold neighbour?
  simp only
  split
  · rename_i hlower hupper
    exfalso
    have hfarBelow : ((m.value / step).floor.toNat : ℚ) * step ≤ m.lower := by
      refine le_of_not_gt fun hlt => ?_
      rw [Magnitude.rounds_of_between hlt (lt_of_le_of_lt hbelow m.lt_upper)] at hlower
      cases hlower
    have hfarAbove : m.upper ≤ ((m.value / step).floor.toNat + 1) * step := by
      refine le_of_not_gt fun hlt => ?_
      push_cast at hupper
      rw [Magnitude.rounds_of_between (m.lower_lt.trans habove) hlt] at hupper
      cases hupper
    linarith
  · rfl
  · rfl
  · rfl

/-- Seventeen digits are finer than the interval of what rounds to a magnitude. -/
theorem lt_width {m : Magnitude} (hm : Fits m.significand m.exponent)
    (hpos : 0 < m.significand) :
    (10 : ℚ) ^ (decimalExponent m.value - 16) < m.upper - m.lower := by
  have hp := two_zpow_pos m.exponent
  have hone : (1 : ℚ) ≤ m.significand := by exact_mod_cast hpos
  have hvalue : m.value = m.significand * 2 ^ m.exponent := by
    rw [Magnitude.value, powerOfTwo_eq]
  have hvaluePos : 0 < m.value := by
    rw [hvalue]
    exact mul_pos (by linarith) hp
  have hstep : (10 : ℚ) ^ (decimalExponent m.value - 16) ≤ m.value / 10 ^ 16 := by
    rw [zpow_sub₀ (by norm_num)]
    exact div_le_div_of_nonneg_right (decimalExponent_le hvaluePos) (by norm_num)
  refine lt_of_le_of_lt hstep ?_
  rw [hvalue, m.upper_eq, div_lt_iff₀ (by norm_num)]
  by_cases hleading : m.significand = hiddenBit ∧ -1074 < m.exponent
  · rw [Magnitude.lower_eq_of_leading hleading.1 hleading.2]
    have hcast : (m.significand : ℚ) = 2 ^ 52 := by
      rw [hleading.1]
      norm_num [hiddenBit]
    rw [hcast, ← sub_mul, mul_right_comm]
    exact mul_lt_mul_of_pos_right (by norm_num) hp
  · rw [Magnitude.lower_eq hleading]
    have hlarge : (m.significand : ℚ) + 1 ≤ 2 ^ 53 := by exact_mod_cast hm.1
    rw [← sub_mul, mul_right_comm]
    refine mul_lt_mul_of_pos_right ?_ hp
    calc (m.significand : ℚ) < 2 ^ 53 := by linarith
      _ < _ := by ring_nf; norm_num

/-! ### The search -/

theorem decimalValue_trim (digits places : Nat) :
    decimalValue (decimalOf.trim digits places) = (digits : ℚ) / 10 ^ places := by
  induction places generalizing digits with
  | zero => rfl
  | succ places ih =>
    rw [decimalOf.trim]
    split
    · rename_i hten
      have hdigits : (digits : ℚ) = 10 * ((digits / 10 : Nat) : ℚ) := by
        exact_mod_cast (show digits = 10 * (digits / 10) by omega)
      rw [ih, hdigits, pow_succ]
      field_simp
    · rfl

theorem decimalValue_decimalOf (k : Nat) (e : Int) :
    decimalValue (decimalOf k e) = k * 10 ^ e := by
  unfold decimalOf
  split
  · rename_i h
    obtain ⟨n, rfl⟩ := Int.eq_ofNat_of_zero_le h
    simp [decimalValue]
  · rename_i h
    obtain ⟨n, hn⟩ := Int.eq_ofNat_of_zero_le (show 0 ≤ -e by omega)
    obtain rfl : e = -(n : Int) := by omega
    rw [decimalValue_trim, zpow_neg, zpow_natCast, neg_neg, Int.toNat_natCast]
    rfl

/-- **The shortest decimal rounds to the magnitude.** -/
theorem shortest_rounds {m : Magnitude} (hm : Fits m.significand m.exponent)
    (hpos : 0 < m.significand) : m.rounds (decimalValue (shortest m)) = true := by
  unfold shortest
  rw [if_neg hpos.ne']
  simp only
  set attempt := fun count : Nat =>
    (neighbour? m (powerOfTen (decimalExponent m.value - (count : Int)))).map
      (decimalOf · (decimalExponent m.value - (count : Int))) with hattempt
  have hsome : ((List.range 17).findSome? attempt).isSome = true := by
    rw [List.findSome?_isSome_iff]
    refine ⟨16, by decide, ?_⟩
    rw [hattempt, Option.isSome_map, powerOfTen_eq]
    exact neighbour?_isSome (zpow_pos (by norm_num) _) (lt_width hm hpos)
  obtain ⟨d, hd⟩ := Option.isSome_iff_exists.mp hsome
  obtain ⟨count, -, hcount⟩ := List.exists_of_findSome?_eq_some hd
  obtain ⟨k, hk, rfl⟩ := Option.map_eq_some_iff.mp hcount
  rw [hd, Option.getD_some, decimalValue_decimalOf, ← powerOfTen_eq]
  exact neighbour?_rounds hk

end PolyAlgebra.Double
