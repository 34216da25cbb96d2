/-
The reader accepts exactly the grammar.

Soundness follows the reader: an operand spans tokens that are one, and a chain extends the
expression that came before it.  Completeness follows the derivation.  The two places where
the reader commits early lose nothing.  A parenthesis that is tried as the start of a literal
first succeeds on an expression in parentheses only if that is a lone variable with its
exponent, which stands for the same term either way.  And where a name and a caret are
followed by a number, taking the number for an exponent leaves a literal as it was, so an
expression of the grammar can always be read that way (`derivable_iff_reads`).
-/
import Mathlib
import PolyAlgebra.Double.Arithmetic
import PolyAlgebra.Proofs.Ambiguity
import PolyAlgebra.Proofs.LiteralReading
import PolyAlgebra.Proofs.Outcome

namespace PolyAlgebra.Grammar

variable {α : Type} [Number α]

/-! ### What is read is derived -/

theorem readLiteral_eq_ok_iff {stop : Nat} {tokens rest : List Token} {e : Expr α} :
    Expr.readLiteral stop tokens = .ok (e, rest) ↔
      ∃ t, Literal.read stop tokens = .ok (t, rest) ∧ Expr.ofTerm t = e := by
  rw [Expr.readLiteral]
  cases Literal.read (α := α) stop tokens with
  | error err => exact iff_of_false (by simp) (by simp)
  | ok read => simp [Prod.ext_iff, and_comm]

theorem readLiteral_derives {stop : Nat} {tokens rest : List Token} {e : Expr α}
    (h : Expr.readLiteral stop tokens = .ok (e, rest)) :
    ∃ ts, tokens = ts ++ rest ∧ Derives ExponentsFirst .operand ts e ∧
      ExponentsFirst ts rest := by
  obtain ⟨t, hread, rfl⟩ := readLiteral_eq_ok_iff.mp h
  obtain ⟨ts, htokens, hliteral, hfirst⟩ := readLiteral_sound hread
  exact ⟨ts, htokens, .literal hliteral, hfirst⟩

theorem expectClose_eq_ok_iff {tokens rest : List Token} :
    expectClose tokens = .ok rest ↔
      ∃ closing s, tokens = ⟨.closeParen, closing, s⟩ :: rest := by
  constructor
  · intro h
    cases tokens with
    | nil => cases h
    | cons t us =>
      rw [expectClose] at h
      split at h
      · rename_i hkind
        obtain rfl := Except.ok.inj h
        exact ⟨t.text, t.span, by rw [← hkind]⟩
      · cases h
  · intro h
    obtain ⟨closing, s, rfl⟩ := h
    rfl

/-- Where no literal starts at a parenthesis, an expression and the closing parenthesis are
read. -/
theorem readOperand_parentheses_iff {stop bound : Nat} {opening : String} {s : Span}
    {us rest : List Token} {e : Expr α} {err : ParseError}
    (h : Expr.readLiteral (α := α) stop (⟨.openParen, opening, s⟩ :: us) = .error err) :
    Expr.readOperand stop (bound + 1) (⟨.openParen, opening, s⟩ :: us) = .ok (e, rest) ↔
      ∃ operand left closing s', Expr.readOperand stop bound us = .ok (operand, left) ∧
        Expr.readChain stop bound operand left = .ok (e, ⟨.closeParen, closing, s'⟩ :: rest) := by
  rw [Expr.readOperand]
  simp only [h]
  constructor
  · intro h
    obtain ⟨⟨operand, left⟩, hoperand, h⟩ := bind_eq_ok_iff.mp h
    obtain ⟨⟨e', left'⟩, hchain, h⟩ := bind_eq_ok_iff.mp h
    obtain ⟨rest', hclose, h⟩ := bind_eq_ok_iff.mp h
    obtain ⟨rfl, rfl⟩ := Prod.mk.inj (Except.ok.inj h)
    obtain ⟨closing, s', rfl⟩ := expectClose_eq_ok_iff.mp hclose
    exact ⟨operand, left, closing, s', hoperand, hchain⟩
  · intro h
    obtain ⟨operand, left, closing, s', hoperand, hchain⟩ := h
    refine bind_eq_ok_iff.mpr ⟨_, hoperand, bind_eq_ok_iff.mpr ⟨_, hchain, ?_⟩⟩
    exact bind_eq_ok_iff.mpr ⟨rest, expectClose_eq_ok_iff.mpr ⟨closing, s', rfl⟩, rfl⟩

/-- An operand that is read within a bound spans tokens that are one. -/
def OperandSound (α : Type) [Number α] (stop bound : Nat) : Prop :=
  ∀ (tokens rest : List Token) (e : Expr α),
    Expr.readOperand stop bound tokens = .ok (e, rest) →
    ∃ ts, tokens = ts ++ rest ∧ Derives ExponentsFirst .operand ts e ∧ ExponentsFirst ts rest

/-- What is read within a bound after an expression extends it. -/
def ChainSound (α : Type) [Number α] (stop bound : Nat) : Prop :=
  ∀ (tokens rest : List Token) (e e' : Expr α),
    Expr.readChain stop bound e tokens = .ok (e', rest) →
    ∀ ls, Derives ExponentsFirst .expression ls e → ExponentsFirst ls tokens →
    ∃ ts, tokens = ts ++ rest ∧ Derives ExponentsFirst .expression (ls ++ ts) e' ∧
      ExponentsFirst (ls ++ ts) rest

/-- Where no operator is read, the expression stays as it is. -/
theorem chain_ends {ls tokens rest : List Token} {e e' : Expr α}
    (h : (.ok (e, tokens) : Except ParseError (Expr α × List Token)) = .ok (e', rest))
    (hls : Derives ExponentsFirst .expression ls e) (hfirst : ExponentsFirst ls tokens) :
    ∃ ts, tokens = ts ++ rest ∧ Derives ExponentsFirst .expression (ls ++ ts) e' ∧
      ExponentsFirst (ls ++ ts) rest := by
  obtain ⟨rfl, rfl⟩ := Prod.mk.inj (Except.ok.inj h)
  exact ⟨[], rfl, by rwa [List.append_nil], by rwa [List.append_nil]⟩

theorem OperandSound.succ {stop bound : Nat} (hoperand : OperandSound α stop bound)
    (hchain : ChainSound α stop bound) : OperandSound α stop (bound + 1) := by
  intro tokens rest e h
  cases tokens with
  | nil =>
    rw [Expr.readOperand] at h
    cases h
  | cons first us =>
    obtain ⟨kind, opening, s⟩ := first
    by_cases hparen : kind = .openParen
    · subst hparen
      cases hliteral : Expr.readLiteral (α := α) stop (⟨.openParen, opening, s⟩ :: us) with
      | error err =>
        obtain ⟨operand, left, closing, s', hread, hreadChain⟩ :=
          (readOperand_parentheses_iff hliteral).mp h
        obtain ⟨ls, rfl, hls, hfirst⟩ := hoperand us left operand hread
        obtain ⟨ts, rfl, hts, -⟩ := hchain _ _ _ _ hreadChain ls hls.operand hfirst
        refine ⟨⟨.openParen, opening, s⟩ :: ((ls ++ ts) ++ [⟨.closeParen, closing, s'⟩]),
          by simp, .parentheses hts, fun hends => ?_⟩
        exact absurd hends (not_endsInName_append_singleton (_ :: (ls ++ ts)) (by simp))
      | ok read =>
        rw [Expr.readOperand] at h
        simp only [hliteral] at h
        obtain rfl := Except.ok.inj h
        exact readLiteral_derives hliteral
    · rw [Expr.readOperand] at h
      split at h
      · exact absurd ‹_› hparen
      · exact readLiteral_derives h
      · exact readLiteral_derives h
      · exact readLiteral_derives h
      · cases h

theorem ChainSound.succ {stop bound : Nat} (hoperand : OperandSound α stop bound)
    (hchain : ChainSound α stop bound) : ChainSound α stop (bound + 1) := by
  intro tokens rest e e' h ls hls hfirst
  cases tokens with
  | nil =>
    rw [Expr.readChain] at h
    exact chain_ends h hls hfirst
  | cons symbol us =>
    rw [Expr.readChain] at h
    split at h
    · rename_i op hop
      obtain ⟨⟨operand, rest₁⟩, hread, hreadChain⟩ := bind_eq_ok_iff.mp h
      obtain ⟨rs, rfl, hrs, hlast⟩ := hoperand us rest₁ operand hread
      have hallowed : ExponentsFirst ls (symbol :: rs) := fun hends hstarts =>
        hfirst hends (hstarts.append rest₁)
      have hnext : ExponentsFirst (ls ++ symbol :: rs) rest₁ := fun hends =>
        hlast ((endsInName_append_cons_iff ls symbol hrs.proper.1).mp hends)
      obtain ⟨ts, rfl, hts, hfinal⟩ :=
        hchain _ _ _ _ hreadChain _ (.chain hls hrs hop hallowed) hnext
      refine ⟨symbol :: (rs ++ ts), by simp, ?_, ?_⟩
      · simpa using hts
      · simpa using hfinal
    · exact chain_ends h hls hfirst

/-- **What is read is derived**, an operand and what extends an expression. -/
theorem read_sound (stop bound : Nat) : OperandSound α stop bound ∧ ChainSound α stop bound := by
  induction bound with
  | zero =>
    constructor
    · intro tokens rest e h
      rw [Expr.readOperand] at h
      cases h
    · intro tokens rest e e' h ls hls hfirst
      rw [Expr.readChain] at h
      exact chain_ends h hls hfirst
  | succ bound ih => exact ⟨.succ ih.1 ih.2, .succ ih.1 ih.2⟩

/-! ### What is derived is read -/

/-- What reading does with tokens of a rule, whatever may come after them.  The chain of an
expression is read up to its end, and what is left of the bound is still enough. -/
def Completes (stop : Nat) : Rule → List Token → Expr α → Prop
  | .operand, ts, e => ∀ rest bound, Follows rest → ExponentsFirst ts rest →
      (ts ++ rest).length ≤ bound → Expr.readOperand stop bound (ts ++ rest) = .ok (e, rest)
  | .expression, ts, e => ∀ rest bound, Follows rest → ExponentsFirst ts rest →
      (ts ++ rest).length ≤ bound →
      ∃ operand left, Expr.readOperand stop bound (ts ++ rest) = .ok (operand, left) ∧
        left.length < (ts ++ rest).length ∧
        ∀ chainBound, left.length ≤ chainBound →
          ∃ bound', rest.length ≤ bound' ∧
            Expr.readChain stop chainBound operand left = Expr.readChain stop bound' e rest

/-- A chain stops where no operator comes next. -/
theorem readChain_stops (stop bound : Nat) (e : Expr α) {rest : List Token}
    (h : ∀ t us, rest = t :: us → t.kind.operator? = none) :
    Expr.readChain stop bound e rest = .ok (e, rest) := by
  cases bound with
  | zero => rw [Expr.readChain]
  | succ bound =>
    cases rest with
    | nil => rw [Expr.readChain]
    | cons t us =>
      rw [Expr.readChain, h t us rfl]

theorem readOperand_literal {stop bound : Nat} {ts rest : List Token} {t : Term α}
    (h : LiteralOf ts t) (hrest : Follows rest) (hfirst : ExponentsFirst ts rest)
    (hbound : (ts ++ rest).length ≤ bound) :
    Expr.readOperand stop bound (ts ++ rest) = .ok (Expr.ofTerm t, rest) := by
  have hliteral : Expr.readLiteral stop (ts ++ rest) = .ok (Expr.ofTerm t, rest) :=
    readLiteral_eq_ok_iff.mpr ⟨t, readLiteral_complete stop h hfirst hrest, rfl⟩
  obtain ⟨first, us, hts⟩ := List.exists_cons_of_ne_nil h.proper.1
  subst hts
  rw [List.cons_append] at hliteral hbound ⊢
  obtain ⟨bound, rfl⟩ : ∃ b, bound = b + 1 := ⟨bound - 1, by simp at hbound; omega⟩
  rw [Expr.readOperand]
  rcases h.kind_head with hkind | hkind | hkind | hkind <;> rw [hkind] <;> simp only [hliteral]

/-- If a literal is read where a parenthesis opens, then it starts with a variable in
parentheses. -/
theorem readLiteral_openParen {stop : Nat} {opening : String} {s : Span}
    {tokens rest : List Token} {t : Term α}
    (h : Literal.read stop (⟨.openParen, opening, s⟩ :: tokens) = .ok (t, rest)) :
    ∃ (name closing : String) (s₁ s₂ : Span) (ts more : List Token) (exponent : α)
      (factors : List (String × α)) (powers : NameMap α),
      tokens = ⟨.identifier, name, s₁⟩ :: (ts ++ ⟨.closeParen, closing, s₂⟩ :: (more ++ rest)) ∧
      ExponentOf ts exponent ∧ FactorsOf more factors ∧
      Collects ((name, exponent) :: factors) powers ∧ t = Term.normalise 1 powers := by
  obtain ⟨ts, htokens, ⟨hs, hn, hf, hsome, hp⟩, -⟩ := readLiteral_sound h
  rename_i ss ns fs negative number factors powers
  cases hs with
  | minus => cases htokens
  | absent =>
    cases hn with
    | number => cases htokens
    | absent =>
      cases hf with
      | nil =>
        obtain ⟨c, hc, -⟩ := hsome rfl
        cases hc
      | cons hfactor hfactors =>
        cases hfactor with
        | bare _ => cases htokens
        | @parentheses _ name closing _ s₁ s₂ ts exponent hexponent =>
          simp only [List.nil_append, List.cons_append, List.append_assoc, List.cons.injEq]
            at htokens
          exact ⟨name, closing, s₁, s₂, ts, _, exponent, _, powers, htokens.2, hexponent,
            hfactors, hp, rfl⟩

/-- A closing parenthesis ends a chain. -/
theorem readChain_closeParen (stop bound : Nat) (e : Expr α) (closing : String) (s : Span)
    (rest : List Token) :
    Expr.readChain stop bound e (⟨.closeParen, closing, s⟩ :: rest)
      = .ok (e, ⟨.closeParen, closing, s⟩ :: rest) := by
  refine readChain_stops stop bound e ?_
  intro t us h
  obtain ⟨rfl, -⟩ := List.cons.inj h
  rfl

/-- If an expression in parentheses can also be read as the start of a literal, then it is a
lone variable, and both give the same term and leave the same tokens. -/
theorem lone_variable {stop bound : Nat} {opening closing : String} {s₁ s₂ : Span}
    {ts left rest rest' : List Token} {t : Term α} {operand e : Expr α}
    (hread : Literal.read stop
      (⟨.openParen, opening, s₁⟩ :: (ts ++ ⟨.closeParen, closing, s₂⟩ :: rest)) = .ok (t, rest'))
    (hoperand : Expr.readOperand stop bound (ts ++ ⟨.closeParen, closing, s₂⟩ :: rest)
      = .ok (operand, left))
    (hchain : Expr.readChain stop bound operand left
      = .ok (e, ⟨.closeParen, closing, s₂⟩ :: rest))
    (hbound : (ts ++ ⟨.closeParen, closing, s₂⟩ :: rest).length ≤ bound)
    (hrest : Follows rest) : Expr.ofTerm t = e ∧ rest' = rest := by
  obtain ⟨name, closing', s₃, s₄, es, more, exponent, factors, powers, hwhole, hexponent,
    hfactors, hp, rfl⟩ := readLiteral_openParen hread
  -- the variable is read as it stands
  have hvariable : LiteralOf (⟨.identifier, name, s₃⟩ :: es)
      (Term.normalise 1 ([(name, exponent)].foldl Literal.addPower NameMap.empty)) := by
    have hfactor : FactorsOf (⟨.identifier, name, s₃⟩ :: es ++ []) [(name, exponent)] :=
      .cons (.bare hexponent) .nil
    rw [List.append_nil] at hfactor
    exact .intro .absent .absent hfactor (by simp) (collects_foldl _)
  rw [← List.cons_append] at hwhole
  have hfollows : Follows (⟨.closeParen, closing', s₄⟩ :: (more ++ rest')) := Or.inl rfl
  rw [hwhole, readOperand_literal hvariable hfollows
    (fun _ => not_startsExponent_of_kind (by simp)) (hwhole ▸ hbound)] at hoperand
  obtain ⟨rfl, rfl⟩ := Prod.mk.inj (Except.ok.inj hoperand)
  rw [readChain_closeParen] at hchain
  obtain ⟨rfl, hsame⟩ := Prod.mk.inj (Except.ok.inj hchain)
  obtain ⟨-, rfl⟩ := List.cons.inj hsame
  -- and no factor can come after the parentheses
  have hnone : factors = [] := by
    refine Classical.byContradiction fun hne => ?_
    cases hm : more ++ rest' with
    | nil =>
      obtain ⟨rfl, -⟩ := List.append_eq_nil_iff.mp hm
      exact hne (hfactors.eq_nil_iff.mp rfl)
    | cons t us =>
      rw [hm] at hrest
      rcases hfactors.kind_head hne hm with hkind | hkind <;>
        simp [Follows, hkind, TokenKind.operator?] at hrest
  obtain rfl := hfactors.eq_nil_iff.mpr hnone
  rw [hp.eq, hnone]
  exact ⟨rfl, rfl⟩

/-- An expression between parentheses is read whether or not the parenthesis is first taken for
the start of a literal. -/
theorem completes_parentheses {stop : Nat} {ts : List Token} {e : Expr α}
    (ih : Completes stop .expression ts e) (opening closing : String) (s₁ s₂ : Span) :
    Completes stop .operand
      (⟨.openParen, opening, s₁⟩ :: (ts ++ [⟨.closeParen, closing, s₂⟩])) e := by
  intro rest bound hrest _ hbound
  simp only [List.cons_append, List.append_assoc, List.nil_append] at hbound ⊢
  obtain ⟨bound, rfl⟩ : ∃ b, bound = b + 1 := ⟨bound - 1, by simp at hbound; omega⟩
  simp only [List.length_cons, Nat.add_le_add_iff_right] at hbound
  -- the expression between the parentheses is read in any case
  obtain ⟨operand, left, hoperand, hleft, hcontinue⟩ :=
    ih (⟨.closeParen, closing, s₂⟩ :: rest) bound (Or.inl rfl)
      (fun _ => not_startsExponent_of_kind (by simp)) hbound
  obtain ⟨bound', -, hchain⟩ := hcontinue bound (by omega)
  rw [readChain_closeParen] at hchain
  cases hliteral : Expr.readLiteral (α := α) stop
      (⟨.openParen, opening, s₁⟩ :: (ts ++ ⟨.closeParen, closing, s₂⟩ :: rest)) with
  | error err =>
    exact (readOperand_parentheses_iff hliteral).mpr
      ⟨operand, left, closing, s₂, hoperand, hchain⟩
  | ok read =>
    obtain ⟨t, hread, hterm⟩ := readLiteral_eq_ok_iff.mp hliteral
    obtain ⟨he, hsame⟩ := lone_variable hread hoperand hchain hbound hrest
    rw [Expr.readOperand]
    simp only [hliteral]
    rw [← he, ← hsame, hterm]

/-- **What is derived is read in full.** -/
theorem read_complete (stop : Nat) {rule : Rule} {ts : List Token} {e : Expr α}
    (h : Derives ExponentsFirst rule ts e) : Completes stop rule ts e := by
  induction h with
  | literal h =>
    intro rest bound hrest hfirst hbound
    exact readOperand_literal h hrest hfirst hbound
  | parentheses _ ih => exact completes_parentheses ih _ _ _ _
  | @operand ts e h ih =>
    intro rest bound hrest hfirst hbound
    have hpos := List.length_pos_iff.mpr h.proper.1
    refine ⟨e, rest, ih rest bound hrest hfirst hbound, by simp; omega, ?_⟩
    intro chainBound hchain
    exact ⟨chainBound, hchain, rfl⟩
  | @chain ls rs left right op symbol hl hr hop ha ihl ihr =>
    intro rest bound hrest hfirst hbound
    rw [List.append_assoc, List.cons_append] at hbound ⊢
    have hnext : ExponentsFirst ls (symbol :: (rs ++ rest)) := fun hends hstarts =>
      ha hends (hstarts.of_append hr)
    have hlater : ExponentsFirst rs rest := fun hends =>
      hfirst ((endsInName_append_cons_iff ls symbol hr.proper.1).mpr hends)
    obtain ⟨operand, left, hoperand, hleft, hcontinue⟩ :=
      ihl (symbol :: (rs ++ rest)) bound (Or.inr ⟨op, hop⟩) hnext hbound
    refine ⟨operand, left, hoperand, hleft, fun chainBound hchain => ?_⟩
    obtain ⟨bound', hbound', heq⟩ := hcontinue chainBound hchain
    obtain ⟨bound', rfl⟩ : ∃ b, bound' = b + 1 := ⟨bound' - 1, by simp at hbound'; omega⟩
    have hright := ihr rest bound' hrest hlater (by simpa using hbound')
    refine ⟨bound', ?_, ?_⟩
    · simp at hbound'
      omega
    · rw [heq, Expr.readChain, hop]
      simp only
      rw [hright]
      rfl

/-- Parsing reads an operand and the chain after it, and nothing may be left over. -/
theorem parse_eq_ok_iff {text : String} {tokens : List Token}
    (h : Token.scan text = .ok tokens) {e : Expr α} :
    Expr.parse text = .ok e ↔ ∃ operand left,
      Expr.readOperand text.utf8ByteSize tokens.length tokens = .ok (operand, left) ∧
        Expr.readChain text.utf8ByteSize left.length operand left = .ok (e, []) := by
  rw [Expr.parse, h]
  constructor
  · intro hparse
    obtain ⟨_, htokens, hparse⟩ := bind_eq_ok_iff.mp hparse
    obtain rfl := Except.ok.inj htokens
    obtain ⟨⟨e', rest⟩, hread, hparse⟩ := bind_eq_ok_iff.mp hparse
    obtain ⟨_, hend, hparse⟩ := bind_eq_ok_iff.mp hparse
    obtain rfl := Except.ok.inj hparse
    obtain ⟨⟨operand, left⟩, hoperand, hchain⟩ := bind_eq_ok_iff.mp hread
    cases rest with
    | nil => exact ⟨operand, left, hoperand, hchain⟩
    | cons t us => cases hend
  · intro h
    obtain ⟨operand, left, hoperand, hchain⟩ := h
    have hread : Expr.read text.utf8ByteSize tokens = .ok (e, []) :=
      bind_eq_ok_iff.mpr ⟨_, hoperand, hchain⟩
    exact bind_eq_ok_iff.mpr ⟨tokens, rfl, bind_eq_ok_iff.mpr ⟨_, hread, rfl⟩⟩

theorem parse_eq_ok_iff_reads {text : String} {tokens : List Token}
    (h : Token.scan text = .ok tokens) (e : Expr α) :
    Expr.parse text = .ok e ↔ Reads tokens e := by
  rw [parse_eq_ok_iff h]
  constructor
  · intro h
    obtain ⟨operand, left, hoperand, hchain⟩ := h
    obtain ⟨ls, rfl, hls, hfirst⟩ := (read_sound _ _).1 _ _ _ hoperand
    obtain ⟨ts, rfl, hts, -⟩ := (read_sound _ _).2 _ _ _ _ hchain ls hls.operand hfirst
    rwa [List.append_nil]
  · intro hreads
    obtain ⟨operand, left, hoperand, -, hcontinue⟩ :=
      read_complete text.utf8ByteSize hreads [] tokens.length trivial
        (fun _ hstarts => by cases hstarts) (by simp)
    obtain ⟨bound', -, hchain⟩ := hcontinue left.length (Nat.le_refl _)
    rw [readChain_stops _ bound' e (by simp)] at hchain
    rw [List.append_nil] at hoperand
    exact ⟨operand, left, hoperand, hchain⟩

/-- **Reading accepts exactly the grammar, and reads exponents first.**  A text that can be cut
into tokens is an expression exactly if the grammar derives its tokens.  The expression is then
the one reading of the tokens in which operators group to the left, all with one precedence, a
caret and a number after a name are an exponent, and repeated factors have their exponents
added. -/
theorem parse_accepts_grammar {text : String} {tokens : List Token}
    (h : Token.scan text = .ok tokens) :
    ((∃ e : Expr α, Expr.parse text = .ok e) ↔ Derivable α tokens) ∧
      ∀ e : Expr α, Expr.parse text = .ok e ↔ Reads tokens e := by
  refine ⟨?_, parse_eq_ok_iff_reads h⟩
  rw [derivable_iff_reads]
  exact exists_congr (parse_eq_ok_iff_reads h)

/-- A number after a caret could be an exponent or an operand here. -/
theorem parse_accepts_exponent :
    let tokens : List Token := [⟨.identifier, "x", ⟨0, 1⟩⟩, ⟨.caret, "^", ⟨1, 2⟩⟩,
      ⟨.number, "2", ⟨2, 3⟩⟩, ⟨.identifier, "y", ⟨3, 4⟩⟩]
    Token.scan "x^2y" = .ok tokens ∧
      ((∃ e : Expr Float, Expr.parse "x^2y" = .ok e) ↔ Derivable Float tokens) ∧
      ∀ e : Expr Float, Expr.parse "x^2y" = .ok e ↔ Reads tokens e := by
  intro tokens
  have h : Token.scan "x^2y" = .ok tokens := by cbv
  exact ⟨h, parse_accepts_grammar h⟩

end PolyAlgebra.Grammar
