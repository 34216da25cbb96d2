/-
Reading a text as a term, and as an expression.

A text is a term if its tokens are one literal (`Term.parse_eq_ok_iff`), and a literal is an
operand.  So a term is an expression, the sum that holds it.  The other way round there is one
difference: an operand may also be an expression in parentheses.  An expression that is a sum of
terms, with no operator in it, is a term or such an expression, and what stands between the
parentheses is then read as the same sum.

That reads the text between the parentheses as a text of its own.  Its tokens are those that the
whole text has there, except that they are counted from another place (`scanFrom_shift`), and the
grammar asks for kinds and words only, not for places (`Derives.moved`).
-/
import Mathlib
import PolyAlgebra.Proofs.ErrorPositions

namespace PolyAlgebra

/-- The same piece at another place. -/
def Token.moved (f : Span → Span) (t : Token) : Token := ⟨t.kind, t.text, f t.span⟩

/-- The span that many bytes further back. -/
def Span.unshift (offset : Nat) (s : Span) : Span := ⟨s.start - offset, s.stop - offset⟩

theorem Span.unshift_shift (offset : Nat) (s : Span) : (s.shift offset).unshift offset = s := by
  simp [Span.shift, Span.unshift]

/-! ### Places do not matter to the grammar -/

namespace Grammar

variable {α : Type} [Number α] {f : Span → Span} {ts : List Token}

theorem ExponentOf.moved {exponent : α} (h : ExponentOf ts exponent) :
    ExponentOf (ts.map (Token.moved f)) exponent := by
  cases h with
  | absent => exact .absent
  | positive => exact .positive
  | negative => exact .negative

theorem FactorOf.moved {factor : String × α} (h : FactorOf ts factor) :
    FactorOf (ts.map (Token.moved f)) factor := by
  cases h with
  | bare h => exact .bare h.moved
  | parentheses h =>
    rw [List.map_cons, List.map_cons, List.map_append]
    exact .parentheses h.moved

theorem FactorsOf.moved {factors : List (String × α)} (h : FactorsOf ts factors) :
    FactorsOf (ts.map (Token.moved f)) factors := by
  induction h with
  | nil => exact .nil
  | cons h _ ih =>
    rw [List.map_append]
    exact .cons h.moved ih

theorem SignOf.moved {negative : Bool} (h : SignOf ts negative) :
    SignOf (ts.map (Token.moved f)) negative := by
  cases h with
  | absent => exact .absent
  | minus => exact .minus

theorem NumberOf.moved {number : Option α} (h : NumberOf ts number) :
    NumberOf (ts.map (Token.moved f)) number := by
  cases h with
  | absent => exact .absent
  | number => exact .number

theorem LiteralOf.moved {t : Term α} (h : LiteralOf ts t) :
    LiteralOf (ts.map (Token.moved f)) t := by
  obtain ⟨hs, hn, hf, hsome, hp⟩ := h
  rw [List.map_append, List.map_append]
  exact .intro hs.moved hn.moved hf.moved hsome hp

theorem endsInName_moved : EndsInName (ts.map (Token.moved f)) ↔ EndsInName ts := by
  simp [EndsInName, Token.moved]

/-- What starts an exponent at one place does so at another. -/
theorem StartsExponent.of_moved (h : StartsExponent (ts.map (Token.moved f))) :
    StartsExponent ts := by
  generalize hus : ts.map (Token.moved f) = us at h
  cases h with
  | positive =>
    obtain ⟨⟨_, _, _⟩, _, rfl, hcaret, hrest⟩ := List.map_eq_cons_iff.mp hus
    obtain ⟨⟨_, _, _⟩, _, rfl, hdigits, -⟩ := List.map_eq_cons_iff.mp hrest
    cases hcaret
    cases hdigits
    exact .positive
  | negative =>
    obtain ⟨⟨_, _, _⟩, _, rfl, hcaret, hrest⟩ := List.map_eq_cons_iff.mp hus
    obtain ⟨⟨_, _, _⟩, _, rfl, hminus, hrest⟩ := List.map_eq_cons_iff.mp hrest
    obtain ⟨⟨_, _, _⟩, _, rfl, hdigits, -⟩ := List.map_eq_cons_iff.mp hrest
    cases hcaret
    cases hminus
    cases hdigits
    exact .negative

/-- **Tokens at other places are read as the same expression.** -/
theorem Derives.moved {rule : Rule} {e : Expr α} (h : Derives ExponentsFirst rule ts e) :
    Derives ExponentsFirst rule (ts.map (Token.moved f)) e := by
  induction h with
  | literal h => exact .literal h.moved
  | parentheses _ ih =>
    rw [List.map_cons, List.map_append]
    exact .parentheses ih
  | operand _ ih => exact .operand ih
  | chain _ _ hop ha ihl ihr =>
    rw [List.map_append, List.map_cons]
    refine .chain ihl ihr hop fun hends hstarts => ?_
    rw [← List.map_cons] at hstarts
    exact ha (endsInName_moved.mp hends) hstarts.of_moved

end Grammar

/-! ### Tokens at the ends of a text -/

namespace Token

variable {position : Nat} {cs : List Char} {t : Token} {ts : List Token}

/-- Tokens that are counted from another byte are moved by the difference. -/
theorem scanFrom_shift (offset position : Nat) (h : scanFrom (offset + position) cs = .ok ts) :
    ∃ us, scanFrom position cs = .ok us ∧ us.map (moved (Span.shift offset)) = ts := by
  induction cs using text_induction generalizing position ts with
  | nil =>
    rw [scanFrom] at h
    obtain rfl := Except.ok.inj h
    exact ⟨[], by rw [scanFrom], rfl⟩
  | blank c rest hc ih =>
    rw [scanFrom_blank hc, Nat.add_assoc] at h
    rw [scanFrom_blank hc]
    exact ih _ h
  | word kind piece rest hlongest ih =>
    rw [scanFrom_longest hlongest, map_eq_ok_iff] at h
    obtain ⟨others, hothers, rfl⟩ := h
    rw [Nat.add_assoc] at hothers
    obtain ⟨us, hus, rfl⟩ := ih _ hothers
    refine ⟨ofChars kind position piece :: us, ?_, ?_⟩
    · rw [scanFrom_longest hlongest, hus]
      rfl
    · rw [List.map_cons, ofChars, ofChars, moved, Span.shift, Nat.add_assoc]
  | foreign c rest hc =>
    rw [scanFrom_foreign hc] at h
    cases h

/-- A text without tokens is white space. -/
theorem isBlank_of_scanFrom_nil (h : scanFrom position cs = .ok []) :
    ∀ c ∈ cs, Text.isBlank c = true := by
  obtain ⟨us, hus, hmoved⟩ := scanFrom_shift position 0 h
  obtain rfl := List.map_eq_nil_iff.mp hmoved
  have hcovers : CoversFrom [] cs [] := scanFrom_covers (clear_nil cs) hus
  intro c hc
  obtain ⟨front, after, heq⟩ := List.append_of_mem hc
  rcases hcovers.blank front c after heq with ⟨t, ht, -⟩ | hblank
  · cases ht
  · exact hblank

/-- Before the first token there is white space, and the other tokens come behind it. -/
theorem scanFrom_cons (h : scanFrom position cs = .ok (t :: ts)) :
    ∃ before piece rest position', cs = before ++ (piece ++ rest) ∧
      (∀ c ∈ before, Text.isBlank c = true) ∧ Word t.kind piece ∧
      scanFrom position' rest = .ok ts := by
  induction cs using text_induction generalizing position with
  | nil => simp [scanFrom] at h
  | blank c rest hc ih =>
    rw [scanFrom_blank hc] at h
    obtain ⟨before, piece, rest, position', rfl, hbefore, hword, hrest⟩ := ih h
    exact ⟨c :: before, piece, rest, position', rfl, List.forall_mem_cons.mpr ⟨hc, hbefore⟩,
      hword, hrest⟩
  | word kind piece rest hlongest ih =>
    rw [scanFrom_longest hlongest, map_eq_ok_iff] at h
    obtain ⟨others, hothers, hcons⟩ := h
    obtain ⟨rfl, rfl⟩ := List.cons.inj hcons
    exact ⟨[], piece, rest, _, rfl, List.forall_mem_nil _, hlongest.word, hothers⟩
  | foreign c rest hc =>
    rw [scanFrom_foreign hc] at h
    cases h

/-- Behind the last token there is white space, and the other tokens are those of the text before
it. -/
theorem scanFrom_concat (h : scanFrom position cs = .ok (ts ++ [t])) :
    ∃ front piece after, cs = front ++ (piece ++ after) ∧ scanFrom position front = .ok ts ∧
      Word t.kind piece ∧ ∀ c ∈ after, Text.isBlank c = true := by
  induction cs using text_induction generalizing position ts with
  | nil => simp [scanFrom] at h
  | blank c rest hc ih =>
    rw [scanFrom_blank hc] at h
    obtain ⟨front, piece, after, rfl, hfront, hword, hafter⟩ := ih h
    exact ⟨c :: front, piece, after, rfl, by rw [scanFrom_blank hc, hfront], hword, hafter⟩
  | word kind piece rest hlongest ih =>
    rw [scanFrom_longest hlongest, map_eq_ok_iff] at h
    obtain ⟨others, hothers, hcons⟩ := h
    cases ts with
    | nil =>
      obtain ⟨rfl, rfl⟩ := List.cons.inj hcons
      exact ⟨[], piece, rest, rfl, by rw [scanFrom], hlongest.word,
        isBlank_of_scanFrom_nil hothers⟩
    | cons u us =>
      rw [List.cons_append] at hcons
      obtain ⟨rfl, rfl⟩ := List.cons.inj hcons
      obtain ⟨front, last, after, rfl, hfront, hword, hafter⟩ := ih hothers
      refine ⟨piece ++ front, last, after, (List.append_assoc _ _ _).symm, ?_, hword, hafter⟩
      rw [scanFrom_longest hlongest.of_append, hfront]
      rfl
  | foreign c rest hc =>
    rw [scanFrom_foreign hc] at h
    cases h

/-- Symbols of one kind are the same. -/
theorem eq_of_ofSymbol? {c d : Char} {kind : TokenKind} (hc : TokenKind.ofSymbol? c = some kind)
    (hd : TokenKind.ofSymbol? d = some kind) : c = d := by
  have hall := Text.of_ofSymbol? (p := fun c => ['(', ')', '+', '-', '*', '/', '^'].all fun d =>
    TokenKind.ofSymbol? c != TokenKind.ofSymbol? d || c == d) (by decide) hc
  have hsame := Text.of_ofSymbol?
    (p := fun d => TokenKind.ofSymbol? c != TokenKind.ofSymbol? d || c == d) hall hd
  simpa [hc, hd] using hsame

/-- A word of the kind of a symbol is that symbol. -/
theorem Word.eq_symbol {c : Char} {kind : TokenKind} {piece : List Char} (h : Word kind piece)
    (hc : TokenKind.ofSymbol? c = some kind) : piece = [c] := by
  cases h with
  | symbol hd => rw [eq_of_ofSymbol? hc hd]
  | identifier => exact absurd rfl (Text.kind_of_ofSymbol? hc).1
  | whole => exact absurd rfl (Text.kind_of_ofSymbol? hc).2
  | decimal => exact absurd rfl (Text.kind_of_ofSymbol? hc).2

end Token

/-- A text in parentheses, with white space around them. -/
def Encloses (outer inner : String) : Prop :=
  ∃ before after : String, outer = before ++ "(" ++ inner ++ ")" ++ after ∧
    (∀ c ∈ before.toList, Text.isBlank c = true) ∧ ∀ c ∈ after.toList, Text.isBlank c = true

/-- If a text starts and ends with the tokens of parentheses, then it encloses a text that has the
tokens between them. -/
theorem exists_encloses {text opening closing : String} {s₁ s₂ : Span} {ts : List Token}
    (h : Token.scan text = .ok (⟨.openParen, opening, s₁⟩ :: (ts ++ [⟨.closeParen, closing, s₂⟩]))) :
    ∃ inner f, Encloses text inner ∧ Token.scan inner = .ok (ts.map (Token.moved f)) := by
  obtain ⟨before, left, rest, position, htext, hbefore, hleft, hrest⟩ := Token.scanFrom_cons h
  obtain ⟨inner, right, after, rfl, hinner, hright, hafter⟩ := Token.scanFrom_concat hrest
  obtain rfl := hleft.eq_symbol (c := '(') rfl
  obtain rfl := hright.eq_symbol (c := ')') rfl
  obtain ⟨us, hus, rfl⟩ := Token.scanFrom_shift position 0 hinner
  refine ⟨String.ofList inner, Span.unshift position,
    ⟨String.ofList before, String.ofList after, ?_, by simpa, by simpa⟩, ?_⟩
  · rw [← String.ofList_toList (s := text), htext]
    simp [String.append_assoc]
  · rw [Token.scan, String.toList_ofList, hus, List.map_map]
    have hback : Token.moved (Span.unshift position) ∘ Token.moved (Span.shift position) = id := by
      funext t
      simp [Token.moved, Span.unshift_shift]
    rw [hback, List.map_id]

namespace Grammar

variable {α : Type} [Number α]

/-- A text is a term if its tokens are one literal. -/
theorem term_parse_eq_ok_iff {text : String} {tokens : List Token}
    (h : Token.scan text = .ok tokens) (t : Term α) :
    Term.parse text = .ok t ↔ LiteralOf tokens t := by
  rw [Term.parse, h]
  constructor
  · intro hparse
    obtain ⟨_, htokens, hparse⟩ := bind_eq_ok_iff.mp hparse
    obtain rfl := Except.ok.inj htokens
    split at hparse
    · cases hparse
    obtain ⟨⟨t', rest⟩, hread, hparse⟩ := bind_eq_ok_iff.mp hparse
    obtain ⟨_, hend, hparse⟩ := bind_eq_ok_iff.mp hparse
    obtain rfl := Except.ok.inj hparse
    cases rest with
    | nil =>
      obtain ⟨ts, rfl, hliteral, -⟩ := readLiteral_sound hread
      rwa [List.append_nil]
    | cons _ _ => cases hend
  · intro hliteral
    have hread : Literal.read text.utf8ByteSize (tokens ++ []) = .ok (t, []) :=
      readLiteral_complete _ hliteral (fun _ hstarts => by cases hstarts) trivial
    rw [List.append_nil] at hread
    refine bind_eq_ok_iff.mpr ⟨tokens, rfl, ?_⟩
    rw [if_neg (by simpa using hliteral.proper.1)]
    exact bind_eq_ok_iff.mpr ⟨_, hread, rfl⟩

/-- A sum of terms is read from a literal, or from parentheses about what is read as the sum. -/
theorem Reads.sum_cases {tokens : List Token} {terms : TermSum α}
    (h : Reads tokens (.sum terms)) :
    (∃ t, LiteralOf tokens t ∧ Expr.ofTerm t = .sum terms) ∨
      ∃ opening closing s₁ s₂ ts, Reads ts (.sum terms) ∧
        tokens = ⟨.openParen, opening, s₁⟩ :: (ts ++ [⟨.closeParen, closing, s₂⟩]) := by
  generalize he : Expr.sum terms = e at h
  cases h with
  | chain => cases he
  | operand h =>
    cases h with
    | literal h => exact .inl ⟨_, h, rfl⟩
    | parentheses h => exact .inr ⟨_, _, _, _, _, h, rfl⟩

end Grammar

open Grammar

/-- **Reading a text as a term and reading it as an expression agree.**  What is a term is the
expression that holds the term.  An expression that is a sum of terms is a term, and holds it, or
it is another text in parentheses, with white space around them, and that text is read as the same
sum. -/
theorem Expr.parse_agrees {α : Type} [Number α] (text : String) :
    (∀ t : Term α, Term.parse text = .ok t → Expr.parse text = .ok (ofTerm t)) ∧
    ∀ terms : TermSum α, Expr.parse text = .ok (.sum terms) →
      (∃ t : Term α, Term.parse text = .ok t ∧ ofTerm t = .sum terms) ∨
        ∃ inner, Encloses text inner ∧ Expr.parse inner = .ok (.sum terms) := by
  constructor
  · intro t ht
    obtain ⟨tokens, hscan, -⟩ := bind_eq_ok_iff.mp ht
    rw [term_parse_eq_ok_iff hscan] at ht
    exact (parse_eq_ok_iff_reads hscan _).mpr (.operand (.literal ht))
  · intro terms hterms
    obtain ⟨tokens, hscan, -⟩ := bind_eq_ok_iff.mp hterms
    rw [parse_eq_ok_iff_reads hscan] at hterms
    rcases hterms.sum_cases with ⟨t, ht, heq⟩ | ⟨opening, closing, s₁, s₂, ts, hts, rfl⟩
    · exact .inl ⟨t, (term_parse_eq_ok_iff hscan t).mpr ht, heq⟩
    · obtain ⟨inner, f, hencloses, hinner⟩ := exists_encloses hscan
      exact .inr ⟨inner, hencloses, (parse_eq_ok_iff_reads hinner _).mpr hts.moved⟩

/-- A literal is read both ways.  One in two pairs of parentheses is read as an expression, and so
is what the outer pair encloses. -/
theorem Expr.parse_agrees_parentheses :
    let t : Term Float := Term.ofPowers (-1) [("x", 2)]
    let terms : TermSum Float := [Term.ofName "x"]
    Term.parse "-x(x)" = .ok t ∧ Expr.parse "-x(x)" = .ok (ofTerm t) ∧
      Expr.parse " ((x))" = .ok (.sum terms) ∧
      ((∃ t : Term Float, Term.parse " ((x))" = .ok t ∧ ofTerm t = .sum terms) ∨
        ∃ inner, Encloses " ((x))" inner ∧ Expr.parse inner = .ok (.sum terms)) := by
  intro t terms
  have hliteral : Token.scan "-x(x)" = .ok [⟨.minus, "-", ⟨0, 1⟩⟩, ⟨.identifier, "x", ⟨1, 2⟩⟩,
      ⟨.openParen, "(", ⟨2, 3⟩⟩, ⟨.identifier, "x", ⟨3, 4⟩⟩, ⟨.closeParen, ")", ⟨4, 5⟩⟩] := by
    cbv
  have hnested : Token.scan " ((x))" = .ok [⟨.openParen, "(", ⟨1, 2⟩⟩,
      ⟨.openParen, "(", ⟨2, 3⟩⟩, ⟨.identifier, "x", ⟨3, 4⟩⟩, ⟨.closeParen, ")", ⟨4, 5⟩⟩,
      ⟨.closeParen, ")", ⟨5, 6⟩⟩] := by
    cbv
  have hterm : Term.parse "-x(x)" = .ok t := by
    subst t
    rw [Term.parse, hliteral]
    rfl
  have hterms : Expr.parse " ((x))" = .ok (.sum terms) := by
    subst terms
    simp only [Expr.parse, hnested]
    rfl
  exact ⟨hterm, (parse_agrees _).1 t hterm, hterms, (parse_agrees _).2 terms hterms⟩

end PolyAlgebra
