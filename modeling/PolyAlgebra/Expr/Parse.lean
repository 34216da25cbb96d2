/-
Reading expressions and terms.

An expression is a chain of operands joined by operators, which all bind alike and group to
the left.  An operand is a literal or an expression in parentheses.  A literal is an optional
minus sign, an optional number and any number of factors; a factor is a variable with an
optional exponent, bare or in parentheses.

    expression := operand (OPERATOR operand)*
    operand    := literal | "(" expression ")"
    literal    := "-"? NUMBER? factor*
    factor     := IDENTIFIER exponent? | "(" IDENTIFIER exponent? ")"
    exponent   := "^" "-"? NUMBER

Reading is greedy.  A caret after a variable starts an exponent whenever a number follows,
and an open parenthesis is first tried as the start of a literal, then as one about an
expression.  Repeated factors have their exponents added.  A literal needs a factor, or a
number that is not zero.

Each reader takes the tokens that are left and returns those it leaves.  Where a reader calls
itself, its first argument bounds the number of tokens, so that at zero there are none left.
-/
import PolyAlgebra.Expr.Basic
import PolyAlgebra.Token.Scan

namespace PolyAlgebra

namespace Literal

variable {α : Type} [Number α]

/-- The number that digits stand for. -/
def numberOf (digits : String) : α := Number.ofDecimal (Decimal.ofChars digits.toList)

/-- An exponent, which is 1 if none is written. -/
def readExponent : List Token → α × List Token
  | ⟨.caret, _, _⟩ :: ⟨.number, digits, _⟩ :: rest => (numberOf digits, rest)
  | ⟨.caret, _, _⟩ :: ⟨.minus, _, _⟩ :: ⟨.number, digits, _⟩ :: rest => (-numberOf digits, rest)
  | tokens => (1, tokens)

/-- A variable with its exponent, bare or in parentheses. -/
def readFactor? : List Token → Option ((String × α) × List Token)
  | ⟨.identifier, name, _⟩ :: tokens =>
    let (exponent, rest) := readExponent tokens
    some ((name, exponent), rest)
  | ⟨.openParen, _, _⟩ :: ⟨.identifier, name, _⟩ :: tokens =>
    match readExponent tokens with
    | (exponent, ⟨.closeParen, _, _⟩ :: rest) => some ((name, exponent), rest)
    | _ => none
  | _ => none

/-- As many factors as there are. -/
def readFactors : Nat → List Token → List (String × α) × List Token
  | 0, tokens => ([], tokens)
  | bound + 1, tokens =>
    match readFactor? tokens with
    | some (factor, rest) =>
      let (factors, rest) := readFactors bound rest
      (factor :: factors, rest)
    | none => ([], tokens)

/-- A minus sign, if there is one. -/
def readSign : List Token → Bool × List Token
  | ⟨.minus, _, _⟩ :: rest => (true, rest)
  | tokens => (false, tokens)

/-- A number, if there is one. -/
def readNumber? : List Token → Option α × List Token
  | ⟨.number, digits, _⟩ :: rest => (some (numberOf digits), rest)
  | tokens => (none, tokens)

/-- Multiply a power of a variable into others. -/
def addPower (powers : NameMap α) (factor : String × α) : NameMap α :=
  powers.insert factor.1 ((powers.get? factor.1).getD 0 + factor.2)

/-- The coefficient of a literal without its sign, if the literal is one. -/
def coefficient? (number : Option α) (factors : List (String × α)) : Option α :=
  match number with
  | some c => if c == 0 && factors.isEmpty then none else some c
  | none => if factors.isEmpty then none else some 1

/-- The term that a sign, a number and factors make up, if they do. -/
def term? (negative : Bool) (number : Option α) (factors : List (String × α)) :
    Option (Term α) :=
  (coefficient? number factors).map (fun c =>
    Term.normalise (if negative then -c else c) (factors.foldl addPower NameMap.empty))

/-- The byte position of the next token, that of the end of the text if there is none. -/
def position (stop : Nat) : List Token → Nat
  | [] => stop
  | t :: _ => t.span.start

/-- A literal, in a text of `stop` bytes. -/
def read (stop : Nat) (tokens : List Token) : Except ParseError (Term α × List Token) :=
  let (negative, afterSign) := readSign tokens
  let (number, afterNumber) := readNumber? afterSign
  let (factors, rest) := readFactors afterNumber.length afterNumber
  match term? negative number factors with
  | some t => .ok (t, rest)
  | none => .error (.invalidLiteral ⟨position stop tokens, position stop rest⟩)

end Literal

/-- Refuse tokens that are left over. -/
def expectEnd : List Token → Except ParseError Unit
  | [] => .ok ()
  | t :: _ => .error (.unexpectedToken t.kind t.span TokenKind.operators)

/-- Step over a closing parenthesis. -/
def expectClose : List Token → Except ParseError (List Token)
  | [] => .error .unexpectedEnd
  | t :: rest =>
    if t.kind = .closeParen then .ok rest
    else .error (.unexpectedToken t.kind t.span [.closeParen])

namespace Expr

variable {α : Type} [Number α]

/-- A literal as an expression. -/
def readLiteral (stop : Nat) (tokens : List Token) : Except ParseError (Expr α × List Token) :=
  (fun read => (ofTerm read.1, read.2)) <$> Literal.read stop tokens

mutual

/-- One operand. -/
def readOperand (stop : Nat) : Nat → List Token → Except ParseError (Expr α × List Token)
  | 0, _ => .error .unexpectedEnd
  | _ + 1, [] => .error .unexpectedEnd
  | bound + 1, first :: rest =>
    match first.kind with
    | .openParen =>
      match readLiteral stop (first :: rest) with
      | .ok read => .ok read
      | .error _ => do
        let (operand, rest) ← readOperand stop bound rest
        let (e, rest) ← readChain stop bound operand rest
        let rest ← expectClose rest
        .ok (e, rest)
    | .number => readLiteral stop (first :: rest)
    | .identifier => readLiteral stop (first :: rest)
    | .minus => readLiteral stop (first :: rest)
    | kind => .error (.unexpectedToken kind first.span TokenKind.operandStarts)

/-- The operators and operands that follow an operand, grouped to the left. -/
def readChain (stop : Nat) :
    Nat → Expr α → List Token → Except ParseError (Expr α × List Token)
  | 0, e, tokens => .ok (e, tokens)
  | _ + 1, e, [] => .ok (e, [])
  | bound + 1, e, first :: rest =>
    match first.kind.operator? with
    | some op => do
      let (operand, rest) ← readOperand stop bound rest
      readChain stop bound (.binary op e operand) rest
    | none => .ok (e, first :: rest)

end

/-- An expression, in a text of `stop` bytes. -/
def read (stop : Nat) (tokens : List Token) : Except ParseError (Expr α × List Token) := do
  let (operand, rest) ← readOperand stop tokens.length tokens
  readChain stop rest.length operand rest

/-- The expression that a text stands for. -/
def parse (text : String) : Except ParseError (Expr α) := do
  let tokens ← Token.scan text
  let (e, rest) ← read text.utf8ByteSize tokens
  expectEnd rest
  .ok e

end Expr

/-- The term that a text stands for. -/
def Term.parse {α : Type} [Number α] (text : String) : Except ParseError (Term α) := do
  let tokens ← Token.scan text
  if tokens.isEmpty then .error .unexpectedEnd
  else
    let (t, rest) ← Literal.read text.utf8ByteSize tokens
    expectEnd rest
    .ok t

end PolyAlgebra
