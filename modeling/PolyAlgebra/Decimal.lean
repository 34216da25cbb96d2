/-
Decimal numerals.

A number is written in positional notation only: an optional minus sign, the whole part,
and a point with the fraction if there is one.  There is never an exponent, however large
or small the number, and no point without a digit behind it.  A numeral is kept as the
fraction it stands for, `digits / 10 ^ places`, and `ofChars_chars` says that reading its
text gives the same fraction back.

Reading is more generous than writing: `1.` and `007` are read too, as 1 and 7.
-/
namespace PolyAlgebra

/-- The fraction `digits / 10 ^ places`, written with exactly `places` digits after the point. -/
structure Decimal where
  /-- The digits with the point left out. -/
  digits : Nat
  /-- How many of the digits stand after the point. -/
  places : Nat
deriving DecidableEq

namespace Decimal

/-- The last `count` decimal digits of a number, zeros in front included. -/
def lastDigits : Nat → Nat → List Char
  | 0, _ => []
  | count + 1, n => lastDigits count (n / 10) ++ [Nat.digitChar (n % 10)]

/-- A number without its last `count` decimal digits. -/
def dropDigits : Nat → Nat → Nat
  | 0, n => n
  | count + 1, n => dropDigits count (n / 10)

/-- The whole part, then a point and the fraction if any digit stands after the point. -/
def chars (d : Decimal) : List Char :=
  Nat.toDigits 10 (dropDigits d.places d.digits) ++
    (if d.places = 0 then [] else '.' :: lastDigits d.places d.digits)

/-- The text of a decimal. -/
def text (d : Decimal) : String := String.ofList d.chars

/-- Read digits with at most one point among them; the first point divides. -/
def ofChars (cs : List Char) : Decimal :=
  let whole := cs.takeWhile (· != '.')
  let fraction := (cs.dropWhile (· != '.')).drop 1
  ⟨Nat.ofDigitChars 10 (whole ++ fraction) 0, fraction.length⟩

/-! ### Reading back what was written -/

@[simp] theorem length_lastDigits (count n : Nat) : (lastDigits count n).length = count := by
  induction count generalizing n with
  | zero => rfl
  | succ count ih => simp [lastDigits, ih]

/-- The last digits of a number complete what is left of it without them. -/
theorem ofDigitChars_lastDigits (count n : Nat) :
    Nat.ofDigitChars 10 (lastDigits count n) (dropDigits count n) = n := by
  induction count generalizing n with
  | zero => rfl
  | succ count ih =>
    have hlt : n % 10 < 10 := Nat.mod_lt _ (by decide)
    rw [lastDigits, dropDigits, Nat.ofDigitChars_append, ih,
      Nat.ofDigitChars_cons_digitChar_of_lt_ten hlt, Nat.ofDigitChars_nil]
    exact Nat.div_add_mod n 10

theorem takeWhile_toDigits (n : Nat) (rest : List Char) :
    (Nat.toDigits 10 n ++ rest).takeWhile (· != '.') =
      Nat.toDigits 10 n ++ rest.takeWhile (· != '.') := by
  refine List.takeWhile_append_of_pos fun c hc => ?_
  have := Nat.isDigit_of_mem_toDigits (by decide) (by decide) hc
  simp only [bne_iff_ne, ne_eq]
  rintro rfl
  exact absurd this (by decide)

theorem dropWhile_toDigits (n : Nat) (rest : List Char) :
    (Nat.toDigits 10 n ++ rest).dropWhile (· != '.') = rest.dropWhile (· != '.') := by
  refine List.dropWhile_append_of_pos fun c hc => ?_
  have := Nat.isDigit_of_mem_toDigits (by decide) (by decide) hc
  simp only [bne_iff_ne, ne_eq]
  rintro rfl
  exact absurd this (by decide)

/-- A decimal is read back from its text, digits and places alike. -/
theorem ofChars_chars (d : Decimal) : ofChars d.chars = d := by
  obtain ⟨digits, places⟩ := d
  unfold ofChars chars
  by_cases h : places = 0
  · subst h
    have hwhole := takeWhile_toDigits digits []
    have hfraction := dropWhile_toDigits digits []
    simp only [List.append_nil] at hwhole hfraction
    simp [dropDigits, hwhole, hfraction]
  · simp only [h, if_false, takeWhile_toDigits, dropWhile_toDigits]
    simp [Nat.ofDigitChars_append, ofDigitChars_lastDigits]

end Decimal

/-- What a number looks like in decimal. -/
inductive Numeral where
  /-- It is not a number at all, the outcome of an undefined operation. -/
  | undefined
  /-- It is beyond every decimal, on the side that the sign says. -/
  | infinite (negative : Bool)
  /-- It is a signed decimal; zero has two signs. -/
  | finite (negative : Bool) (magnitude : Decimal)
deriving DecidableEq

namespace Numeral

/-- A minus sign or nothing. -/
def sign (negative : Bool) : String := if negative then "-" else ""

/-- The text of a numeral. -/
def text : Numeral → String
  | .undefined => "NaN"
  | .infinite negative => sign negative ++ "inf"
  | .finite negative magnitude => sign negative ++ magnitude.text

end Numeral

end PolyAlgebra
