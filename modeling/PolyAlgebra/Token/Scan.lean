/-
Cutting a text into tokens.

White space separates and is dropped.  A symbol is a token by itself, letters that follow
each other are one identifier, and digits with at most one point after them are one number;
the point belongs to the number even if no digit follows.  Any other character is an error,
and it is the first error in the text that counts.
-/
import PolyAlgebra.Text.Alphabetic
import PolyAlgebra.Text.Blank
import PolyAlgebra.Token

namespace PolyAlgebra.Token

/-- How many bytes characters take up. -/
def byteLength : List Char → Nat
  | [] => 0
  | c :: rest => c.utf8Size + byteLength rest

/-- Digits with at most one point after them, and more digits after the point: the longest
such run at the start of a text, and the rest. -/
def splitNumber (cs : List Char) : List Char × List Char :=
  match cs.dropWhile Char.isDigit with
  | [] => (cs.takeWhile Char.isDigit, [])
  | c :: rest =>
    if c = '.' then
      (cs.takeWhile Char.isDigit ++ '.' :: rest.takeWhile Char.isDigit,
        rest.dropWhile Char.isDigit)
    else (cs.takeWhile Char.isDigit, c :: rest)

/-- The letters at the start of a text, and the rest. -/
def splitIdentifier (cs : List Char) : List Char × List Char :=
  (cs.takeWhile Text.isAlphabetic, cs.dropWhile Text.isAlphabetic)

/-- Splitting a number off loses nothing. -/
theorem splitNumber_append (cs : List Char) : (splitNumber cs).1 ++ (splitNumber cs).2 = cs := by
  have hcs := List.takeWhile_append_dropWhile (p := Char.isDigit) (l := cs)
  unfold splitNumber
  split
  · rename_i h
    rw [h] at hcs
    exact hcs
  · rename_i c rest h
    rw [h] at hcs
    split
    · rename_i hc
      subst hc
      rw [List.append_assoc, List.cons_append, List.takeWhile_append_dropWhile]
      exact hcs
    · exact hcs

/-- Splitting an identifier off loses nothing. -/
theorem splitIdentifier_append (cs : List Char) :
    (splitIdentifier cs).1 ++ (splitIdentifier cs).2 = cs :=
  List.takeWhile_append_dropWhile

theorem length_splitNumber_le (cs : List Char) : (splitNumber cs).2.length ≤ cs.length := by
  have := congrArg List.length (splitNumber_append cs)
  rw [List.length_append] at this
  omega

theorem length_splitIdentifier_le (cs : List Char) :
    (splitIdentifier cs).2.length ≤ cs.length := by
  have := congrArg List.length (splitIdentifier_append cs)
  rw [List.length_append] at this
  omega

/-- A token made of characters that start at a position. -/
def ofChars (kind : TokenKind) (position : Nat) (cs : List Char) : Token :=
  ⟨kind, String.ofList cs, ⟨position, position + byteLength cs⟩⟩

/-- The tokens of the text that is left at a byte position. -/
def scanFrom (position : Nat) (cs : List Char) : Except ParseError (List Token) :=
  match cs with
  | [] => .ok []
  | c :: rest =>
    if Text.isBlank c then scanFrom (position + c.utf8Size) rest
    else
      match TokenKind.ofSymbol? c with
      | some kind => (ofChars kind position [c] :: ·) <$> scanFrom (position + c.utf8Size) rest
      | none =>
        if Text.isAlphabetic c then
          let name := c :: (splitIdentifier rest).1
          (ofChars .identifier position name :: ·) <$>
            scanFrom (position + byteLength name) (splitIdentifier rest).2
        else if c.isDigit then
          let digits := c :: (splitNumber rest).1
          (ofChars .number position digits :: ·) <$>
            scanFrom (position + byteLength digits) (splitNumber rest).2
        else .error (.invalidCharacter c position)
termination_by cs.length
decreasing_by
  · simp
  · simp
  · exact Nat.lt_succ_of_le (length_splitIdentifier_le rest)
  · exact Nat.lt_succ_of_le (length_splitNumber_le rest)

/-- The tokens of a text. -/
def scan (text : String) : Except ParseError (List Token) := scanFrom 0 text.toList

end PolyAlgebra.Token
