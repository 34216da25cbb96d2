/-
Where the positions in an error are counted from.

A reader complains about the tokens it is given: about one of them, or about a literal that starts
and ends where tokens do (`About`).  It never invents a position, and what it leaves for the next
reader are tokens of the same text.  Tokens stand in the text where their spans say, so the
positions in an error that reading an expression gives point into the text (`PointsInto`).

An equation is read side by side, and each side is a text of its own.  In the left side, positions
are those of the whole text.  In the right side they are counted from behind the equals sign, and
they point into the whole text only if what stands before is added
(`parse_error_pointsInto`).  An equals sign belongs to no word, so a word of a side is a word of the
whole text, and as long there as in its side.
-/
import Mathlib
import PolyAlgebra.Equation
import PolyAlgebra.Proofs.Parsing
import PolyAlgebra.Proofs.Tokenization

namespace PolyAlgebra

/-! ### Positions in a text -/

/-- The span that many bytes further on. -/
def Span.shift (offset : Nat) (s : Span) : Span := ⟨offset + s.start, offset + s.stop⟩

/-- A position between two characters of a text, or at one of its ends. -/
def IsBoundary (text : String) (position : Nat) : Prop :=
  ∃ before after : String, text = before ++ after ∧ before.utf8ByteSize = position

/-- Counted from a byte of the text, the positions in an error point into it: at the character that
is reported, at a word of the kind that is reported, or at the ends of a literal. -/
def ParseError.PointsInto (offset : Nat) (text : String) : ParseError → Prop
  | .invalidCharacter c index => ∃ before after : String,
      text = before ++ String.singleton c ++ after ∧ before.utf8ByteSize = offset + index
  | .unexpectedEnd => True
  | .unexpectedToken found span _ => ∃ t : Token, t.StandsIn text ∧ t.kind = found ∧
      t.span = span.shift offset
  | .invalidLiteral span =>
      IsBoundary text (offset + span.start) ∧ IsBoundary text (offset + span.stop)

theorem Token.StandsIn.isBoundary_start {t : Token} {text : String} (h : t.StandsIn text) :
    IsBoundary text t.span.start := by
  obtain ⟨before, after, htext, hspan, -⟩ := h
  exact ⟨before, t.text ++ after, by rw [htext, String.append_assoc], by rw [hspan]⟩

/-! ### What readers complain about -/

/-- What can be wrong with tokens in a text of `stop` bytes: there are too few, one of them stands
in the wrong place, or they make up no literal. -/
inductive ParseError.About (stop : Nat) (tokens : List Token) : ParseError → Prop
  | unexpectedEnd : About stop tokens .unexpectedEnd
  | unexpectedToken {t : Token} (ht : t ∈ tokens) (expected : List TokenKind) :
      About stop tokens (.unexpectedToken t.kind t.span expected)
  | invalidLiteral {left right : List Token} (hleft : left ⊆ tokens) (hright : right ⊆ tokens) :
      About stop tokens (.invalidLiteral ⟨Literal.position stop left, Literal.position stop right⟩)

theorem ParseError.About.mono {stop : Nat} {tokens more : List Token} {error : ParseError}
    (h : error.About stop tokens) (hsub : tokens ⊆ more) : error.About stop more := by
  cases h with
  | unexpectedEnd => exact .unexpectedEnd
  | unexpectedToken ht expected => exact .unexpectedToken (hsub ht) expected
  | invalidLiteral hleft hright =>
    exact .invalidLiteral (List.Subset.trans hleft hsub) (List.Subset.trans hright hsub)

namespace Grammar

variable {α : Type} [Number α] {stop : Nat} {tokens : List Token} {error : ParseError}

theorem literal_about (h : Literal.read (α := α) stop tokens = .error error) :
    error.About stop tokens := by
  obtain ⟨ss, htokens, -⟩ := readSign_sound tokens
  obtain ⟨ns, hafter, -⟩ := readNumber?_sound (α := α) (Literal.readSign tokens).2
  unfold Literal.read at h
  simp only at h
  generalize Literal.readSign tokens = sign at h htokens hafter
  generalize Literal.readNumber? (α := α) sign.2 = number at h hafter
  generalize hfactors : Literal.readFactors (α := α) number.2.length number.2 = factors at h
  obtain ⟨fs, hrest, -⟩ := readFactors_sound hfactors
  split at h
  · cases h
  · obtain rfl := Except.error.inj h
    refine .invalidLiteral (List.Subset.refl _) ?_
    rw [htokens, hafter, hrest, ← List.append_assoc, ← List.append_assoc]
    exact List.subset_append_right _ _

theorem readLiteral_about (h : Expr.readLiteral (α := α) stop tokens = .error error) :
    error.About stop tokens :=
  literal_about (map_eq_error_iff.mp h)

theorem expectClose_about (h : expectClose tokens = .error error) : error.About stop tokens := by
  cases tokens with
  | nil =>
    obtain rfl := Except.error.inj h
    exact .unexpectedEnd
  | cons t rest =>
    rw [expectClose] at h
    split at h
    · cases h
    · obtain rfl := Except.error.inj h
      exact .unexpectedToken List.mem_cons_self _

theorem expectEnd_about (h : expectEnd tokens = .error error) : error.About stop tokens := by
  cases tokens with
  | nil => cases h
  | cons t rest =>
    obtain rfl := Except.error.inj h
    exact .unexpectedToken List.mem_cons_self _

/-- Within a bound, an operand that cannot be read is refused for its tokens. -/
def OperandAbout (α : Type) [Number α] (stop bound : Nat) : Prop :=
  ∀ tokens error, Expr.readOperand (α := α) stop bound tokens = .error error →
    error.About stop tokens

/-- Within a bound, a chain that cannot be read is refused for its tokens. -/
def ChainAbout (α : Type) [Number α] (stop bound : Nat) : Prop :=
  ∀ (e : Expr α) tokens error, Expr.readChain stop bound e tokens = .error error →
    error.About stop tokens

theorem OperandAbout.succ {bound : Nat} (hoperand : OperandAbout α stop bound)
    (hchain : ChainAbout α stop bound) : OperandAbout α stop (bound + 1) := by
  intro tokens error h
  cases tokens with
  | nil =>
    rw [Expr.readOperand] at h
    obtain rfl := Except.error.inj h
    exact .unexpectedEnd
  | cons first us =>
    rw [Expr.readOperand] at h
    split at h
    · split at h
      · cases h
      · -- no literal starts at the parenthesis, so it is about an expression
        refine ParseError.About.mono ?_ (List.subset_cons_self first us)
        rcases bind_eq_error_iff.mp h with hfails | ⟨⟨operand, left⟩, hread, hthen⟩
        · exact hoperand us error hfails
        obtain ⟨ls, rfl, hls, hfirst⟩ := (read_sound stop bound).1 _ _ _ hread
        refine ParseError.About.mono ?_ (List.subset_append_right ls left)
        rcases bind_eq_error_iff.mp hthen with hfails | ⟨⟨e, rest⟩, hreadChain, hclose⟩
        · exact hchain _ _ _ hfails
        obtain ⟨ts, rfl, -⟩ := (read_sound stop bound).2 _ _ _ _ hreadChain ls hls.operand hfirst
        refine ParseError.About.mono ?_ (List.subset_append_right ts rest)
        rcases bind_eq_error_iff.mp hclose with hfails | ⟨_, -, hend⟩
        · exact expectClose_about hfails
        · cases hend
    · exact readLiteral_about h
    · exact readLiteral_about h
    · exact readLiteral_about h
    · obtain rfl := Except.error.inj h
      exact .unexpectedToken List.mem_cons_self _

theorem ChainAbout.succ {bound : Nat} (hoperand : OperandAbout α stop bound)
    (hchain : ChainAbout α stop bound) : ChainAbout α stop (bound + 1) := by
  intro e tokens error h
  cases tokens with
  | nil =>
    rw [Expr.readChain] at h
    cases h
  | cons first us =>
    rw [Expr.readChain] at h
    split at h
    · refine ParseError.About.mono ?_ (List.subset_cons_self first us)
      rcases bind_eq_error_iff.mp h with hfails | ⟨⟨operand, rest⟩, hread, hthen⟩
      · exact hoperand _ _ hfails
      obtain ⟨ts, rfl, -⟩ := (read_sound stop bound).1 _ _ _ hread
      exact (hchain _ _ _ hthen).mono (List.subset_append_right ts rest)
    · cases h

/-- **What cannot be read is refused for its tokens.** -/
theorem read_about (stop bound : Nat) : OperandAbout α stop bound ∧ ChainAbout α stop bound := by
  induction bound with
  | zero =>
    constructor
    · intro tokens error h
      rw [Expr.readOperand] at h
      obtain rfl := Except.error.inj h
      exact .unexpectedEnd
    · intro e tokens error h
      rw [Expr.readChain] at h
      cases h
  | succ bound ih => exact ⟨.succ ih.1 ih.2, .succ ih.1 ih.2⟩

/-- What is read leaves tokens that were there. -/
theorem read_leaves {e : Expr α} {rest : List Token} (h : Expr.read stop tokens = .ok (e, rest)) :
    rest ⊆ tokens := by
  obtain ⟨⟨operand, left⟩, hoperand, hchain⟩ := bind_eq_ok_iff.mp h
  obtain ⟨ls, rfl, hls, hfirst⟩ := (read_sound _ _).1 _ _ _ hoperand
  obtain ⟨ts, rfl, -⟩ := (read_sound _ _).2 _ _ _ _ hchain ls hls.operand hfirst
  rw [← List.append_assoc]
  exact List.subset_append_right _ rest

theorem expression_about (h : Expr.read (α := α) stop tokens = .error error) :
    error.About stop tokens := by
  rcases bind_eq_error_iff.mp h with hfails | ⟨⟨operand, left⟩, hoperand, hchain⟩
  · exact (read_about _ _).1 _ _ hfails
  · obtain ⟨ls, rfl, -⟩ := (read_sound _ _).1 _ _ _ hoperand
    exact ((read_about _ _).2 _ _ _ hchain).mono (List.subset_append_right ls left)

theorem parse_about {text : String} (hscan : Token.scan text = .ok tokens)
    (h : Expr.parse (α := α) text = .error error) : error.About text.utf8ByteSize tokens := by
  rw [Expr.parse, hscan] at h
  rcases bind_eq_error_iff.mp h with hfails | ⟨_, htokens, hthen⟩
  · cases hfails
  obtain rfl := Except.ok.inj htokens
  rcases bind_eq_error_iff.mp hthen with hfails | ⟨⟨e, rest⟩, hread, hend⟩
  · exact expression_about hfails
  rcases bind_eq_error_iff.mp hend with hfails | ⟨_, -, hdone⟩
  · exact (expectEnd_about hfails).mono (read_leaves hread)
  · cases hdone

end Grammar

/-! ### Errors in an expression -/

variable {text : String} {tokens : List Token} {error : ParseError}

theorem isBoundary_position (hcovers : Token.Covers tokens text) {left : List Token}
    (hleft : left ⊆ tokens) : IsBoundary text (Literal.position text.utf8ByteSize left) := by
  cases left with
  | nil => exact ⟨text, "", by rw [String.append_empty], rfl⟩
  | cons t rest => exact (hcovers.stands t (hleft List.mem_cons_self)).isBoundary_start

theorem ParseError.About.pointsInto (hcovers : Token.Covers tokens text)
    (h : error.About text.utf8ByteSize tokens) : error.PointsInto 0 text := by
  cases h with
  | unexpectedEnd => trivial
  | @unexpectedToken t ht expected =>
    refine ⟨t, hcovers.stands t ht, rfl, ?_⟩
    rw [Span.shift, Nat.zero_add, Nat.zero_add]
  | invalidLiteral hleft hright =>
    rw [PointsInto, Nat.zero_add, Nat.zero_add]
    exact ⟨isBoundary_position hcovers hleft, isBoundary_position hcovers hright⟩

/-- **Errors in an expression point into its text.** -/
theorem Expr.parse_error {α : Type} [Number α] (h : Expr.parse (α := α) text = .error error) :
    error.PointsInto 0 text := by
  cases hscan : Token.scan text with
  | ok tokens =>
    exact (Grammar.parse_about hscan h).pointsInto
      (Token.scanFrom_covers (Token.clear_nil _) hscan).covers
  | error scanError =>
    rw [Expr.parse, hscan] at h
    obtain rfl := Except.error.inj h
    obtain ⟨before, c, after, -, heq, -, rfl, -⟩ := Token.scanFrom_error hscan
    refine ⟨String.ofList before, String.ofList after, ?_, ?_⟩
    · rw [String.singleton_eq_ofList, ← String.ofList_append, ← String.ofList_append,
        ← String.ofList_toList (s := text), heq]
      simp
    · rw [Token.byteLength_eq, Nat.zero_add, Nat.zero_add]

/-! ### Texts beside a separator

A character that is in no word separates what is before it from what follows.
-/

namespace Token

variable {kind : TokenKind} {before piece after : List Char} {c : Char}

/-- A foreign character is in no word, unless it is the point of a number. -/
theorem Word.notMem (h : Word kind piece) (hc : Foreign c) (hpoint : c ≠ '.') : c ∉ piece := by
  intro hmem
  cases h with
  | symbol h =>
    rw [← List.mem_singleton.mp hmem, hc.notSymbol] at h
    cases h
  | identifier _ h => exact absurd (h c hmem) (by simp [hc.notLetter])
  | whole _ h => exact absurd (h c hmem) (by simp [hc.notDigit])
  | decimal hne h hplaces =>
    rcases (Word.decimal hne h hplaces).number.1 c hmem with hdigit | heq
    · exact absurd hdigit (by simp [hc.notDigit])
    · exact hpoint heq

/-- A word in front of a separator goes no further. -/
theorem Maximal.before_separator (h : Maximal kind before piece after) (hc : Foreign c)
    (hpoint : c ≠ '.') (rest : List Char) : Maximal kind before piece (after ++ c :: rest) := by
  refine ⟨h.word, fun b₁ b₂ a₁ a₂ hb ha hword => ?_⟩
  have hmem : c ∉ a₁ := fun hmem => hword.notMem hc hpoint (by simp [hmem])
  rcases List.append_eq_append_iff.mp ha with ⟨more, rfl, hmore⟩ | ⟨more, rfl, -⟩
  · cases more with
    | nil => exact h.maximal b₁ b₂ _ [] hb (by simp) hword
    | cons d more =>
      obtain ⟨rfl, -⟩ := List.cons.inj hmore
      exact absurd (by simp) hmem
  · exact h.maximal b₁ b₂ a₁ more hb rfl hword

/-- A word behind a separator starts where it did. -/
theorem Maximal.after_separator (h : Maximal kind before piece after) (hc : Foreign c)
    (hpoint : c ≠ '.') (front : List Char) : Maximal kind (front ++ c :: before) piece after := by
  refine ⟨h.word, fun b₁ b₂ a₁ a₂ hb ha hword => ?_⟩
  have hmem : c ∉ b₂ := fun hmem => hword.notMem hc hpoint (by simp [hmem])
  rcases append_eq_append_cons hb.symm with ⟨more, -, rfl⟩ | ⟨more, rfl⟩
  · exact absurd (by simp) hmem
  · refine h.maximal more b₂ a₁ a₂ ?_ ha hword
    rw [List.append_assoc] at hb
    exact (List.cons.inj (List.append_cancel_left hb)).2

/-- A token before a separator stands where it stood. -/
theorem StandsIn.before_separator {t : Token} {left : String} (h : t.StandsIn left)
    (hc : Foreign c) (hpoint : c ≠ '.') (right : String) :
    t.StandsIn (left ++ String.singleton c ++ right) := by
  obtain ⟨before, after, htext, hspan, hmaximal⟩ := h
  refine ⟨before, after ++ String.singleton c ++ right, ?_, hspan, ?_⟩
  · simp only [htext, String.append_assoc]
  · simpa using hmaximal.before_separator hc hpoint right.toList

/-- A token behind a separator stands further on. -/
theorem StandsIn.after_separator {t : Token} {right : String} (h : t.StandsIn right)
    (hc : Foreign c) (hpoint : c ≠ '.') (left : String) :
    StandsIn ⟨t.kind, t.text, t.span.shift (left ++ String.singleton c).utf8ByteSize⟩
      (left ++ String.singleton c ++ right) := by
  obtain ⟨before, after, htext, hspan, hmaximal⟩ := h
  refine ⟨left ++ String.singleton c ++ before, after, ?_, ?_, ?_⟩
  · simp only [htext, String.append_assoc]
  · simp only [hspan, Span.shift, String.utf8ByteSize_append, Nat.add_assoc]
  · simpa using hmaximal.after_separator hc hpoint left.toList

end Token

theorem IsBoundary.before {left : String} {position : Nat} (h : IsBoundary left position)
    (right : String) : IsBoundary (left ++ right) position := by
  obtain ⟨before, after, htext, hsize⟩ := h
  exact ⟨before, after ++ right, by rw [htext, String.append_assoc], hsize⟩

theorem IsBoundary.after {right : String} {position : Nat} (h : IsBoundary right position)
    (left : String) : IsBoundary (left ++ right) (left.utf8ByteSize + position) := by
  obtain ⟨before, after, htext, hsize⟩ := h
  exact ⟨left ++ before, after, by rw [htext, String.append_assoc],
    by rw [String.utf8ByteSize_append, hsize]⟩

namespace ParseError

variable {c : Char}

/-- Before a separator, positions are those of the whole text. -/
theorem PointsInto.before_separator {left : String} (h : error.PointsInto 0 left)
    (hc : Token.Foreign c) (hpoint : c ≠ '.') (right : String) :
    error.PointsInto 0 (left ++ String.singleton c ++ right) := by
  cases error with
  | invalidCharacter d index =>
    obtain ⟨before, after, htext, hsize⟩ := h
    refine ⟨before, after ++ String.singleton c ++ right, ?_, hsize⟩
    simp only [htext, String.append_assoc]
  | unexpectedEnd => trivial
  | unexpectedToken found span expected =>
    obtain ⟨t, ht, hkind, hspan⟩ := h
    exact ⟨t, ht.before_separator hc hpoint right, hkind, hspan⟩
  | invalidLiteral span =>
    rw [String.append_assoc]
    exact ⟨h.1.before _, h.2.before _⟩

/-- Behind a separator, positions are those of the whole text once what is before is added. -/
theorem PointsInto.after_separator {right : String} (h : error.PointsInto 0 right)
    (hc : Token.Foreign c) (hpoint : c ≠ '.') (left : String) :
    error.PointsInto (left ++ String.singleton c).utf8ByteSize
      (left ++ String.singleton c ++ right) := by
  cases error with
  | invalidCharacter d index =>
    obtain ⟨before, after, htext, hsize⟩ := h
    refine ⟨left ++ String.singleton c ++ before, after, ?_, ?_⟩
    · simp only [htext, String.append_assoc]
    · rw [String.utf8ByteSize_append, hsize, Nat.zero_add]
  | unexpectedEnd => trivial
  | unexpectedToken found span expected =>
    obtain ⟨t, ht, hkind, hspan⟩ := h
    refine ⟨_, ht.after_separator hc hpoint left, hkind, ?_⟩
    simp only [hspan, Span.shift, Nat.zero_add]
  | invalidLiteral span =>
    rw [PointsInto, Nat.zero_add, Nat.zero_add] at h
    exact ⟨h.1.after _, h.2.after _⟩

end ParseError

/-! ### Errors in an equation -/

namespace Equation

theorem foreign_equals : Token.Foreign '=' :=
  ⟨by decide, by decide, by decide +kernel, by decide⟩

/-- A text has one side without an equals sign, or two with the first equals sign between them. -/
theorem splitSides_cases (text : String) :
    (splitSides text = (text, none) ∧ '=' ∉ text.toList) ∨
      ∃ left right, splitSides text = (left, some right) ∧ '=' ∉ left.toList ∧
        text = left ++ String.singleton '=' ++ right := by
  have hparts := List.takeWhile_append_dropWhile (p := (· != '=')) (l := text.toList)
  have hleft : '=' ∉ text.toList.takeWhile (· != '=') :=
    fun hmem => absurd (List.mem_takeWhile_imp hmem) (by decide)
  rw [splitSides]
  cases hdrop : text.toList.dropWhile (· != '=') with
  | nil =>
    rw [hdrop, List.append_nil] at hparts
    rw [hparts] at hleft
    exact .inl ⟨by rw [hparts, String.ofList_toList], hleft⟩
  | cons c right =>
    obtain rfl : c = '=' := by simpa using Token.head_dropWhile hdrop
    rw [hdrop] at hparts
    refine .inr ⟨_, _, rfl, by rwa [String.toList_ofList], ?_⟩
    rw [String.singleton_eq_ofList, ← String.ofList_append, ← String.ofList_append,
      List.append_assoc, List.singleton_append, hparts, String.ofList_toList]

variable {α : Type} [Number α]

/-- **Where errors in an equation point.**  If the side before the first equals sign, or a text
without one, cannot be read, then the error points into the text.  If the side behind it cannot be
read, then the error points into the text with the bytes up to and with the equals sign added. -/
theorem parse_error_pointsInto (h : Equation.parse (α := α) text = .error error) :
    (∃ left rest : String, text = left ++ rest ∧ '=' ∉ left.toList ∧
        (rest = "" ∨ ∃ right, rest = "=" ++ right) ∧
        Expr.parse (α := α) left = .error error ∧ error.PointsInto 0 text) ∨
      ∃ (left right : String) (e : Expr α), text = left ++ "=" ++ right ∧ '=' ∉ left.toList ∧
        Expr.parse left = .ok e ∧ Expr.parse (α := α) right = .error error ∧
        error.PointsInto (left ++ "=").utf8ByteSize text := by
  rw [Equation.parse] at h
  rcases splitSides_cases text with ⟨hsides, hbody⟩ | ⟨left, right, hsides, hleft, rfl⟩
  · rw [hsides] at h
    have hfails := map_eq_error_iff.mp h
    exact .inl ⟨text, "", String.append_empty.symm, hbody, .inl rfl, hfails,
      Expr.parse_error hfails⟩
  · rw [hsides] at h
    rcases bind_eq_error_iff.mp h with hfails | ⟨l, hl, hthen⟩
    · refine .inl ⟨left, "=" ++ right, String.append_assoc, hleft, .inr ⟨right, rfl⟩, hfails, ?_⟩
      exact (Expr.parse_error hfails).before_separator foreign_equals (by decide) right
    rcases bind_eq_error_iff.mp hthen with hfails | ⟨r, -, hdone⟩
    · refine .inr ⟨left, right, l, rfl, hleft, hl, hfails, ?_⟩
      exact (Expr.parse_error hfails).after_separator foreign_equals (by decide) left
    · cases hdone

/-- Both sides have letters of two bytes, and the right one has a parenthesis too many. -/
theorem parse_error_pointsInto_right :
    let text := "é = β)"
    let error := ParseError.unexpectedToken .closeParen ⟨3, 4⟩ TokenKind.operators
    Equation.parse (α := Float) text = .error error ∧
      ((∃ left rest : String, text = left ++ rest ∧ '=' ∉ left.toList ∧
          (rest = "" ∨ ∃ right, rest = "=" ++ right) ∧
          Expr.parse (α := Float) left = .error error ∧ error.PointsInto 0 text) ∨
        ∃ (left right : String) (e : Expr Float), text = left ++ "=" ++ right ∧
          '=' ∉ left.toList ∧ Expr.parse left = .ok e ∧
          Expr.parse (α := Float) right = .error error ∧
          error.PointsInto (left ++ "=").utf8ByteSize text) := by
  intro text error
  have hsides : splitSides text = ("é ", some " β)") := by cbv
  have hleft : Token.scan "é " = .ok [⟨.identifier, "é", ⟨0, 2⟩⟩] := by cbv
  have hright : Token.scan " β)" =
      .ok [⟨.identifier, "β", ⟨1, 3⟩⟩, ⟨.closeParen, ")", ⟨3, 4⟩⟩] := by cbv
  have h : Equation.parse (α := Float) text = .error error := by
    rw [Equation.parse, hsides]
    simp only [Expr.parse, hleft, hright]
    rfl
  exact ⟨h, parse_error_pointsInto h⟩

/-- Behind the equals sign, positions are not those of the text: the character that is reported
stands at byte 4. -/
theorem parse_error_behind_equals :
    Equation.parse (α := Float) "x = #" = .error (.invalidCharacter '#' 1) ∧
      ¬ (ParseError.invalidCharacter '#' 1).PointsInto 0 "x = #" := by
  have hsides : splitSides "x = #" = ("x ", some " #") := by cbv
  have hleft : Token.scan "x " = .ok [⟨.identifier, "x", ⟨0, 1⟩⟩] := by cbv
  have hright : Token.scan " #" = .error (.invalidCharacter '#' 1) := by cbv
  have h : Equation.parse (α := Float) "x = #" = .error (.invalidCharacter '#' 1) := by
    rw [Equation.parse, hsides]
    simp only [Expr.parse, hleft, hright]
    rfl
  refine ⟨h, ?_⟩
  rintro ⟨before, after, htext, hsize⟩
  have hchars : ['x', ' ', '=', ' ', '#'] = before.toList ++ '#' :: after.toList := by
    simpa using congrArg String.toList htext
  have hlength : Token.byteLength before.toList = 1 := by
    rw [Token.byteLength_eq, String.ofList_toList, hsize]
  cases hbefore : before.toList with
  | nil => simp [hbefore] at hchars
  | cons c rest =>
    rw [hbefore] at hchars hlength
    obtain ⟨rfl, hrest⟩ := List.cons.inj hchars
    cases rest with
    | nil => simp at hrest
    | cons d rest =>
      have hpos := Token.byteLength_pos (List.cons_ne_nil d rest)
      rw [Token.byteLength] at hlength
      have hsize : 'x'.utf8Size = 1 := by decide
      omega

end Equation

end PolyAlgebra
