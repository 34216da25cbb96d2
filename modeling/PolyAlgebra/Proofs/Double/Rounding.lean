/-
The rationals that round to a double.

`Magnitude.rounds` describes by its two ends the rationals that are nearest to a magnitude, and
`nearestBits` rounds a rational at the exponent of its leading bit.  The two agree
(`nearestBits_of_rounds`).  Just below a power of two the exponent of the rational is one less
than that of the magnitude, and there the rounding carries into the next exponent.
-/
import Mathlib
import PolyAlgebra.Proofs.Double.Bits

namespace PolyAlgebra.Double

/-! ### Powers -/

theorem integerPower_eq (base : Nat) (e : Int) : integerPower base e = (base : ℚ) ^ e := by
  unfold integerPower
  split
  · rename_i h
    obtain ⟨n, rfl⟩ := Int.eq_ofNat_of_zero_le h
    simp
  · rename_i h
    obtain ⟨n, hn⟩ := Int.eq_ofNat_of_zero_le (show 0 ≤ -e by omega)
    obtain rfl : e = -(n : Int) := by omega
    simp

theorem powerOfTwo_eq (e : Int) : powerOfTwo e = (2 : ℚ) ^ e := integerPower_eq 2 e

theorem two_zpow_pos (e : Int) : (0 : ℚ) < 2 ^ e := zpow_pos (by norm_num) e

theorem two_zpow_lt_iff {a b : Int} : (2 : ℚ) ^ a < 2 ^ b ↔ a < b :=
  zpow_lt_zpow_iff_right₀ (by norm_num)

/-! ### The leading bit -/

theorem log2_bounds {n : Nat} (h : 0 < n) :
    (2 : ℚ) ^ (n.log2 : Int) ≤ n ∧ (n : ℚ) < 2 ^ ((n.log2 : Int) + 1) := by
  have hlow := Nat.log2_self_le (n := n) (by omega)
  have hhigh := Nat.lt_log2_self (n := n)
  constructor
  · rw [zpow_natCast]
    exact_mod_cast hlow
  · rw [show ((n.log2 : Int) + 1) = ((n.log2 + 1 : Nat) : Int) by omega, zpow_natCast]
    exact_mod_cast hhigh

/-- The leading exponent of a rational is where its leading bit stands. -/
theorem leadingExponent_bounds {r : ℚ} (hr : 0 < r) :
    2 ^ leadingExponent r ≤ r ∧ r < 2 ^ (leadingExponent r + 1) := by
  have hnum : 0 < r.num.toNat := by
    have := Rat.num_pos.mpr hr
    omega
  obtain ⟨hnlow, hnhigh⟩ := log2_bounds hnum
  obtain ⟨hdlow, hdhigh⟩ := log2_bounds r.den_pos
  have hfraction : r = (r.num.toNat : ℚ) / r.den := by
    have hcast : ((r.num.toNat : Int) : ℚ) = (r.num : ℚ) := by
      rw [Int.toNat_of_nonneg (Rat.num_pos.mpr hr).le]
    rw [← Int.cast_natCast, hcast, Rat.num_div_den]
  have hden : (0 : ℚ) < r.den := by exact_mod_cast r.den_pos
  set n := (r.num.toNat.log2 : Int) with hn
  set d := (r.den.log2 : Int) with hd
  -- the quotient of the leading powers is off by one place at most
  have hlow : (2 : ℚ) ^ (n - d - 1) ≤ r := by
    rw [hfraction, le_div_iff₀ hden]
    calc (2 : ℚ) ^ (n - d - 1) * r.den ≤ 2 ^ (n - d - 1) * 2 ^ (d + 1) := by gcongr
      _ = 2 ^ n := by rw [← zpow_add₀ (by norm_num)]; congr 1; omega
      _ ≤ r.num.toNat := hnlow
  have hhigh : r < 2 ^ (n - d + 1) := by
    rw [hfraction, div_lt_iff₀ hden]
    calc (r.num.toNat : ℚ) < 2 ^ (n + 1) := hnhigh
      _ = 2 ^ (n - d + 1) * 2 ^ d := by rw [← zpow_add₀ (by norm_num)]; congr 1; omega
      _ ≤ 2 ^ (n - d + 1) * r.den := by gcongr
  unfold leadingExponent
  simp only [powerOfTwo_eq, ← hn, ← hd]
  split
  · rename_i h
    exact ⟨h, hhigh⟩
  · rename_i h
    refine ⟨hlow, ?_⟩
    rw [sub_add_cancel]
    exact lt_of_not_ge h

/-! ### Rounding to an integer -/

theorem floor_toNat_bounds {r : ℚ} (hr : 0 ≤ r) :
    (r.floor.toNat : ℚ) ≤ r ∧ r < r.floor.toNat + 1 := by
  have hnonneg : 0 ≤ ⌊r⌋ := Int.floor_nonneg.mpr hr
  have hcast : ((r.floor.toNat : Nat) : ℚ) = (⌊r⌋ : ℚ) := by
    rw [← Int.cast_natCast]
    exact congrArg Int.cast (Int.toNat_of_nonneg hnonneg)
  rw [hcast]
  exact ⟨Int.floor_le r, Int.lt_floor_add_one r⟩

/-- A rational less than one half away from an integer rounds to it, and from halfway if the
integer is even. -/
theorem roundHalfEven_eq {r : ℚ} {n : Nat} (hr : 0 ≤ r) (hlow : (n : ℚ) - 1 / 2 ≤ r)
    (hhigh : r ≤ n + 1 / 2)
    (hodd : n % 2 = 1 → (n : ℚ) - 1 / 2 < r ∧ r < n + 1 / 2) : roundHalfEven r = n := by
  have hfloor := floor_toNat_bounds hr
  unfold roundHalfEven
  simp only
  generalize r.floor.toNat = k at hfloor ⊢
  obtain ⟨hk, hk'⟩ := hfloor
  have hkn : k = n ∨ k + 1 = n := by
    have h1 : (k : ℚ) < n + 1 := by linarith
    have h2 : (n : ℚ) < k + 2 := by linarith
    have h3 : k < n + 1 := by exact_mod_cast h1
    have h4 : n < k + 2 := by exact_mod_cast h2
    omega
  rcases hkn with rfl | rfl
  · by_cases hless : r - k < 1 / 2
    · rw [if_pos hless]
    · have hhalf : ¬ 1 / 2 < r - k := by linarith
      have heven : k % 2 = 0 := by
        by_contra h
        have := (hodd (by omega)).2
        linarith
      rw [if_neg hless, if_neg hhalf, if_pos heven]
  · push_cast at hlow hodd
    have hless : ¬ r - k < 1 / 2 := by linarith
    rw [if_neg hless]
    by_cases hmore : 1 / 2 < r - k
    · rw [if_pos hmore]
    · have heven : ¬ k % 2 = 0 := by
        intro h
        have := (hodd (by omega)).1
        linarith
      rw [if_neg hmore, if_neg heven]

/-! ### Rounding to a double -/

/-- The ends of the rationals that round to a magnitude, in units of its last place. -/
theorem Magnitude.rounds_bounds {m : Magnitude} {r : ℚ} (h : m.rounds r = true) :
    m.lower ≤ r ∧ r ≤ m.upper ∧ (m.significand % 2 = 1 → m.lower < r ∧ r < m.upper) := by
  unfold Magnitude.rounds at h
  split at h
  · rename_i heven
    simp only [Bool.and_eq_true, decide_eq_true_eq] at h
    exact ⟨h.1, h.2, fun hodd => by omega⟩
  · simp only [Bool.and_eq_true, decide_eq_true_eq] at h
    exact ⟨h.1.le, h.2.le, fun _ => h⟩

theorem Magnitude.upper_eq (m : Magnitude) :
    m.upper = (m.significand + 1 / 2) * 2 ^ m.exponent := by
  rw [Magnitude.upper, Magnitude.value, powerOfTwo_eq, powerOfTwo_eq, zpow_sub_one₀ (by norm_num)]
  ring

theorem Magnitude.lower_eq_of_leading {m : Magnitude} (h : m.significand = hiddenBit)
    (he : -1074 < m.exponent) : m.lower = (m.significand - 1 / 4) * 2 ^ m.exponent := by
  have hquarter : (2 : ℚ) ^ (m.exponent - 2) = 2 ^ m.exponent * (1 / 4) := by
    rw [zpow_sub₀ (by norm_num)]
    norm_num
    ring
  rw [Magnitude.lower, if_pos ⟨h, he⟩, Magnitude.value, powerOfTwo_eq, powerOfTwo_eq, hquarter]
  ring

theorem Magnitude.lower_eq {m : Magnitude}
    (h : ¬ (m.significand = hiddenBit ∧ -1074 < m.exponent)) :
    m.lower = (m.significand - 1 / 2) * 2 ^ m.exponent := by
  rw [Magnitude.lower, if_neg h, Magnitude.value, powerOfTwo_eq, powerOfTwo_eq,
    zpow_sub_one₀ (by norm_num)]
  ring

/-- No magnitude reaches lower than half a unit in its last place. -/
theorem Magnitude.le_lower (m : Magnitude) :
    (m.significand - 1 / 2) * 2 ^ m.exponent ≤ m.lower := by
  by_cases h : m.significand = hiddenBit ∧ -1074 < m.exponent
  · rw [Magnitude.lower_eq_of_leading h.1 h.2]
    have := two_zpow_pos m.exponent
    gcongr
    norm_num
  · rw [Magnitude.lower_eq h]

theorem Magnitude.le_of_rounds {m : Magnitude} {r : ℚ} (h : m.rounds r = true) :
    (m.significand - 1 / 2) * 2 ^ m.exponent ≤ r :=
  m.le_lower.trans (Magnitude.rounds_bounds h).1

theorem Magnitude.pos_of_rounds {m : Magnitude} (hpos : 0 < m.significand) {r : ℚ}
    (h : m.rounds r = true) : 0 < r := by
  have hone : (1 : ℚ) ≤ m.significand := by exact_mod_cast hpos
  have hp := two_zpow_pos m.exponent
  refine lt_of_lt_of_le ?_ (Magnitude.le_of_rounds h)
  exact mul_pos (by linarith) hp

/-- In units of its last place, what rounds to a magnitude rounds to its significand. -/
theorem roundHalfEven_of_rounds {m : Magnitude} (hpos : 0 < m.significand) {r : ℚ}
    (h : m.rounds r = true) : roundHalfEven (r / 2 ^ m.exponent) = m.significand := by
  obtain ⟨-, hhigh, hodd⟩ := Magnitude.rounds_bounds h
  have hr := Magnitude.pos_of_rounds hpos h
  have hp := two_zpow_pos m.exponent
  refine roundHalfEven_eq (by positivity) ?_ ?_ ?_
  · rw [le_div_iff₀ hp]
    exact Magnitude.le_of_rounds h
  · rw [div_le_iff₀ hp, ← m.upper_eq]
    exact hhigh
  · intro hoddSignificand
    obtain ⟨hlt, hgt⟩ := hodd hoddSignificand
    rw [lt_div_iff₀ hp, div_lt_iff₀ hp, ← m.upper_eq]
    exact ⟨lt_of_le_of_lt m.le_lower hlt, hgt⟩

/-- Only a power of two is rounded to from below its leading bit. -/
theorem significand_eq_of_lt {m : Magnitude} (hm : Fits m.significand m.exponent)
    (hmore : -1074 < m.exponent) {r : ℚ} (h : m.rounds r = true)
    (hbelow : r < 2 ^ (52 + m.exponent)) : m.significand = hiddenBit := by
  obtain ⟨-, -, -, hsub⟩ := hm
  have hp := two_zpow_pos m.exponent
  have hnot : ¬ m.significand < hiddenBit := fun hlt => by
    have := hsub hlt
    omega
  have hlt : (m.significand : ℚ) - 1 / 2 < 2 ^ 52 := by
    rw [zpow_add₀ (by norm_num)] at hbelow
    exact lt_of_mul_lt_mul_right (lt_of_le_of_lt (Magnitude.le_of_rounds h) hbelow) hp.le
  have hltCast : (m.significand : ℚ) < ((2 ^ 52 + 1 : Nat) : ℚ) := by
    push_cast
    linarith
  have hltNat : m.significand < 2 ^ 52 + 1 := by exact_mod_cast hltCast
  simp only [hiddenBit] at hnot ⊢
  omega

/-- From below a power of two, in halves of its last unit, the rounding carries. -/
theorem roundHalfEven_below {m : Magnitude} (hleading : m.significand = hiddenBit)
    (hmore : -1074 < m.exponent) {r : ℚ} (h : m.rounds r = true)
    (hbelow : r < 2 ^ (52 + m.exponent)) :
    roundHalfEven (r / 2 ^ (m.exponent - 1)) = 2 * hiddenBit := by
  have hp := two_zpow_pos m.exponent
  have hr := Magnitude.pos_of_rounds (hleading ▸ by decide) h
  have hscaled : r / 2 ^ (m.exponent - 1) = 2 * (r / 2 ^ m.exponent) := by
    rw [zpow_sub_one₀ (by norm_num)]
    field_simp
  have hsmall : r / 2 ^ m.exponent < 2 ^ 52 := by
    rw [div_lt_iff₀ hp, ← zpow_natCast, ← zpow_add₀ (by norm_num)]
    exact hbelow
  have hbig : (2 : ℚ) ^ 52 - 1 / 4 ≤ r / 2 ^ m.exponent := by
    have hlow := (Magnitude.rounds_bounds h).1
    have hcast : (m.significand : ℚ) = 2 ^ 52 := by
      rw [hleading]
      norm_num [hiddenBit]
    rw [Magnitude.lower_eq_of_leading hleading hmore, hcast] at hlow
    rw [le_div_iff₀ hp]
    exact hlow
  have hcast : ((2 * hiddenBit : Nat) : ℚ) = 2 ^ 53 := by norm_num [hiddenBit]
  rw [hscaled]
  refine roundHalfEven_eq (by positivity) ?_ ?_ (fun hodd => by omega)
  · rw [hcast]
    linarith
  · rw [hcast]
    linarith

/-- The bits of a rational, by the exponent at which it is rounded. -/
theorem nearestBits_of_exponent {r : ℚ} (hr : 0 < r) {e : Int} {n : Nat}
    (he : max (leadingExponent r - 52) (-1074) = e) (hn : roundHalfEven (r / 2 ^ e) = n) :
    nearestBits r = min ((e + 1074).toNat * hiddenBit + n) (2047 * hiddenBit) := by
  unfold nearestBits
  rw [if_neg hr.ne']
  simp only [he, powerOfTwo_eq, hn]

/-- **A rational that rounds to a magnitude has its bits**: the exponent, counted from the least
one, in front of the significand. -/
theorem nearestBits_of_rounds {m : Magnitude} (hm : Fits m.significand m.exponent)
    (hpos : 0 < m.significand) {r : ℚ} (h : m.rounds r = true) :
    nearestBits r = (m.exponent + 1074).toNat * hiddenBit + m.significand := by
  have hr := Magnitude.pos_of_rounds hpos h
  obtain ⟨hllow, hlhigh⟩ := leadingExponent_bounds hr
  obtain ⟨hlarge, hleast, hmost, hsub⟩ := id hm
  by_cases hcarry : r < 2 ^ (52 + m.exponent) ∧ -1074 < m.exponent
  · obtain ⟨hbelow, hmore⟩ := hcarry
    have hleading := significand_eq_of_lt hm hmore h hbelow
    have hexponent : leadingExponent r = 51 + m.exponent := by
      have hless : leadingExponent r < 52 + m.exponent :=
        two_zpow_lt_iff.mp (lt_of_le_of_lt hllow hbelow)
      have hreach : (2 : ℚ) ^ (51 + m.exponent) ≤ r := by
        refine le_trans ?_ (Magnitude.le_of_rounds h)
        rw [zpow_add₀ (by norm_num), hleading]
        gcongr
        norm_num [hiddenBit]
      have hmore := two_zpow_lt_iff.mp (lt_of_le_of_lt hreach hlhigh)
      omega
    rw [nearestBits_of_exponent hr (e := m.exponent - 1) (by omega)
      (roundHalfEven_below hleading hmore h hbelow), hleading]
    simp only [hiddenBit]
    omega
  · have hwhole : r < 2 ^ (53 + m.exponent) := by
      have hhigh := (Magnitude.rounds_bounds h).2.1
      have hlargeCast : (m.significand : ℚ) + 1 ≤ 2 ^ 53 := by exact_mod_cast hlarge
      rw [m.upper_eq] at hhigh
      rw [zpow_add₀ (by norm_num)]
      refine lt_of_le_of_lt hhigh (mul_lt_mul_of_pos_right ?_ (two_zpow_pos _))
      calc (m.significand : ℚ) + 1 / 2 < 2 ^ 53 := by linarith
        _ = 2 ^ (53 : Int) := by norm_num
    have hexponent : max (leadingExponent r - 52) (-1074) = m.exponent := by
      have hless := two_zpow_lt_iff.mp (lt_of_le_of_lt hllow hwhole)
      by_cases hmore : -1074 < m.exponent
      · have hreach : (2 : ℚ) ^ (52 + m.exponent) ≤ r :=
          le_of_not_gt fun hlt => hcarry ⟨hlt, hmore⟩
        have := two_zpow_lt_iff.mp (lt_of_le_of_lt hreach hlhigh)
        omega
      · omega
    rw [nearestBits_of_exponent hr hexponent (roundHalfEven_of_rounds hpos h)]
    simp only [hiddenBit] at hlarge ⊢
    omega

end PolyAlgebra.Double
