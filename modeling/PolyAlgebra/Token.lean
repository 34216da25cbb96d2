/-
The tokens of a text, and what can be wrong with a text.

Every token knows where it stood: a span of byte positions in the UTF-8 form of the text.
-/
import PolyAlgebra.Operator
import PolyAlgebra.Text.Quoted

namespace PolyAlgebra

/-- A piece of a text, by the byte positions of its start and of what follows it. -/
structure Span where
  start : Nat
  stop : Nat
deriving DecidableEq

/-- The text of a span. -/
def Span.text (s : Span) : String := s.start.repr ++ ".." ++ s.stop.repr

/-- The kinds of tokens. -/
inductive TokenKind where
  | identifier
  | number
  | openParen
  | closeParen
  | plus
  | minus
  | times
  | divide
  | caret
deriving DecidableEq

namespace TokenKind

/-- The name of a kind in messages. -/
def name : TokenKind → String
  | .identifier => "Identifier"
  | .number => "Number"
  | .openParen => "OpenParen"
  | .closeParen => "CloseParen"
  | .plus => "Plus"
  | .minus => "Minus"
  | .times => "Times"
  | .divide => "Divide"
  | .caret => "Caret"

/-- The operator that a token stands for. -/
def operator? : TokenKind → Option Operator
  | .plus => some .add
  | .minus => some .subtract
  | .times => some .multiply
  | .divide => some .divide
  | .caret => some .power
  | _ => none

/-- The kind of token that a single character makes up. -/
def ofSymbol? (c : Char) : Option TokenKind :=
  if c = '(' then some .openParen
  else if c = ')' then some .closeParen
  else if c = '+' then some .plus
  else if c = '-' then some .minus
  else if c = '*' then some .times
  else if c = '/' then some .divide
  else if c = '^' then some .caret
  else none

/-- The tokens that can follow a complete expression. -/
def operators : List TokenKind := [.plus, .minus, .times, .divide, .caret]

/-- The tokens that an operand can start with. -/
def operandStarts : List TokenKind := [.number, .identifier, .minus, .openParen]

end TokenKind

/-- A piece of a text that counts as one. -/
structure Token where
  kind : TokenKind
  /-- The piece as it stands in the text. -/
  text : String
  /-- Where the piece stands. -/
  span : Span
deriving DecidableEq

/-- What is wrong with a text. -/
inductive ParseError where
  /-- A character belongs to no token. -/
  | invalidCharacter (c : Char) (index : Nat)
  /-- The text ends where an operand or a parenthesis is missing. -/
  | unexpectedEnd
  /-- A token stands where only others may stand. -/
  | unexpectedToken (found : TokenKind) (span : Span) (expected : List TokenKind)
  /-- A term has neither a variable nor a coefficient other than zero. -/
  | invalidLiteral (span : Span)
deriving DecidableEq

/-- The text of a parse error. -/
def ParseError.message : ParseError → String
  | .invalidCharacter c index =>
    "Invalid character, " ++ Text.quoted c ++ ", at index " ++ index.repr
  | .unexpectedEnd => "Unexpected end of input"
  | .unexpectedToken found span expected =>
    "Found a " ++ found.name ++ " at " ++ span.text ++ " but expected one of [" ++
      ", ".intercalate (expected.map TokenKind.name) ++ "]"
  | .invalidLiteral span => "Invalid literal at " ++ span.text

end PolyAlgebra
