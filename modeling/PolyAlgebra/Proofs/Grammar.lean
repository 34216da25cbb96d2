/-
The grammar of expressions, apart from the reader.

    expression := operand (OPERATOR operand)*
    operand    := literal | "(" expression ")"
    literal    := "-"? NUMBER? factor*
    factor     := IDENTIFIER exponent? | "(" IDENTIFIER exponent? ")"
    exponent   := "^" "-"? NUMBER

A literal must have a factor, or a number that is not zero.  Each rule is a relation between
the tokens it spans and what they stand for.  The grammar is ambiguous only where a caret and
a number follow a name: they may be an exponent, or an operator with its operand.  So the
relation for expressions takes a condition on what may stand on the two sides of the place
where an operator begins; with no condition it is the grammar as written, and with
`ExponentsFirst` it is the reading that prefers exponents.
-/
import PolyAlgebra.Expr.Parse

namespace PolyAlgebra.Grammar

variable {α : Type} [Number α]

/-! ### Literals -/

/-- An exponent, 1 where none is written. -/
inductive ExponentOf : List Token → α → Prop
  | absent : ExponentOf [] 1
  | positive {caret digits : String} {s₁ s₂ : Span} :
      ExponentOf [⟨.caret, caret, s₁⟩, ⟨.number, digits, s₂⟩] (Literal.numberOf digits)
  | negative {caret minus digits : String} {s₁ s₂ s₃ : Span} :
      ExponentOf [⟨.caret, caret, s₁⟩, ⟨.minus, minus, s₂⟩, ⟨.number, digits, s₃⟩]
        (-Literal.numberOf digits)

/-- A variable with its exponent, bare or in parentheses. -/
inductive FactorOf : List Token → String × α → Prop
  | bare {name : String} {s : Span} {ts : List Token} {exponent : α}
      (h : ExponentOf ts exponent) : FactorOf (⟨.identifier, name, s⟩ :: ts) (name, exponent)
  | parentheses {opening name closing : String} {s₁ s₂ s₃ : Span} {ts : List Token}
      {exponent : α} (h : ExponentOf ts exponent) :
      FactorOf (⟨.openParen, opening, s₁⟩ :: ⟨.identifier, name, s₂⟩ ::
        (ts ++ [⟨.closeParen, closing, s₃⟩])) (name, exponent)

/-- Any number of factors. -/
inductive FactorsOf : List Token → List (String × α) → Prop
  | nil : FactorsOf [] []
  | cons {ts us : List Token} {factor : String × α} {factors : List (String × α)}
      (h : FactorOf ts factor) (hs : FactorsOf us factors) :
      FactorsOf (ts ++ us) (factor :: factors)

/-- A minus sign or nothing. -/
inductive SignOf : List Token → Bool → Prop
  | absent : SignOf [] false
  | minus {text : String} {s : Span} : SignOf [⟨.minus, text, s⟩] true

/-- A number or nothing. -/
inductive NumberOf : List Token → Option α → Prop
  | absent : NumberOf [] none
  | number {digits : String} {s : Span} :
      NumberOf [⟨.number, digits, s⟩] (some (Literal.numberOf digits))

/-- The exponents that factors give a variable, in their order. -/
def exponentsOf (name : String) (factors : List (String × α)) : List α :=
  (factors.filter (fun f => f.1 = name)).map Prod.snd

/-- The exponents of repeated factors add up. -/
def Collects (factors : List (String × α)) (powers : NameMap α) : Prop :=
  ∀ name, powers.get? name =
    match exponentsOf name factors with
    | [] => none
    | exponents => some (exponents.foldl (· + ·) 0)

/-- A literal, with a factor or a number that is not zero. -/
inductive LiteralOf : List Token → Term α → Prop
  | intro {ss ns fs : List Token} {negative : Bool} {number : Option α}
      {factors : List (String × α)} {powers : NameMap α}
      (hs : SignOf ss negative) (hn : NumberOf ns number) (hf : FactorsOf fs factors)
      (hsome : factors = [] → ∃ c, number = some c ∧ (c == 0) = false)
      (hp : Collects factors powers) :
      LiteralOf (ss ++ (ns ++ fs))
        (Term.normalise (if negative then -number.getD 1 else number.getD 1) powers)

/-! ### Expressions -/

/-- The rules for expressions and for what operators join. -/
inductive Rule where
  | operand
  | expression

/-- What the rules derive, where operators may begin only between tokens that `allowed`
permits.  Operators all bind alike and group to the left. -/
inductive Derives (allowed : List Token → List Token → Prop) :
    Rule → List Token → Expr α → Prop
  | literal {ts : List Token} {t : Term α} (h : LiteralOf ts t) :
      Derives allowed .operand ts (Expr.ofTerm t)
  | parentheses {opening closing : String} {s₁ s₂ : Span} {ts : List Token} {e : Expr α}
      (h : Derives allowed .expression ts e) :
      Derives allowed .operand
        (⟨.openParen, opening, s₁⟩ :: (ts ++ [⟨.closeParen, closing, s₂⟩])) e
  | operand {ts : List Token} {e : Expr α} (h : Derives allowed .operand ts e) :
      Derives allowed .expression ts e
  | chain {ls rs : List Token} {left right : Expr α} {op : Operator} {symbol : Token}
      (hl : Derives allowed .expression ls left) (hr : Derives allowed .operand rs right)
      (hop : symbol.kind.operator? = some op) (ha : allowed ls (symbol :: rs)) :
      Derives allowed .expression (ls ++ symbol :: rs) (.binary op left right)

/-- A caret and a number, with or without a sign. -/
inductive StartsExponent : List Token → Prop
  | positive {caret digits : String} {s₁ s₂ : Span} {rest : List Token} :
      StartsExponent (⟨.caret, caret, s₁⟩ :: ⟨.number, digits, s₂⟩ :: rest)
  | negative {caret minus digits : String} {s₁ s₂ s₃ : Span} {rest : List Token} :
      StartsExponent
        (⟨.caret, caret, s₁⟩ :: ⟨.minus, minus, s₂⟩ :: ⟨.number, digits, s₃⟩ :: rest)

/-- The last token is a name. -/
def EndsInName (ts : List Token) : Prop := ∃ t, ts.getLast? = some t ∧ t.kind = .identifier

/-- What could be the exponent of a name is not taken for an operator. -/
def ExponentsFirst (left right : List Token) : Prop := EndsInName left → ¬ StartsExponent right

/-- Tokens of an expression by the grammar as written. -/
def Derivable (α : Type) [Number α] (ts : List Token) : Prop :=
  ∃ e : Expr α, Derives (fun _ _ => True) .expression ts e

/-- Tokens and the expression they are read as. -/
def Reads (ts : List Token) (e : Expr α) : Prop := Derives ExponentsFirst .expression ts e

/-- What may come after a literal: nothing, an operator or a closing parenthesis. -/
def Follows : List Token → Prop
  | [] => True
  | t :: _ => t.kind = .closeParen ∨ ∃ op, t.kind.operator? = some op

/-! ### Adding up exponents -/

theorem get?_addPower (powers : NameMap α) (factor : String × α) (name : String) :
    (Literal.addPower powers factor).get? name =
      if factor.1 = name then some ((powers.get? name).getD 0 + factor.2)
      else powers.get? name := by
  rw [Literal.addPower, NameMap.get?_insert]
  by_cases h : factor.1 = name
  · rw [if_pos h, if_pos h.symm, h]
  · rw [if_neg h, if_neg (Ne.symm h)]

/-- Multiplying factors up one by one collects their exponents. -/
theorem collects_foldl (factors : List (String × α)) :
    Collects factors (factors.foldl Literal.addPower NameMap.empty) := by
  have key : ∀ (fs : List (String × α)) (powers : NameMap α) (name : String),
      (fs.foldl Literal.addPower powers).get? name =
        match exponentsOf name fs with
        | [] => powers.get? name
        | exponents => some (exponents.foldl (· + ·) ((powers.get? name).getD 0)) := by
    intro fs
    induction fs with
    | nil => intro powers name; rfl
    | cons f rest ih =>
      intro powers name
      rw [List.foldl_cons, ih, get?_addPower]
      by_cases h : f.1 = name
      · have hcons : exponentsOf name (f :: rest) = f.2 :: exponentsOf name rest := by
          simp [exponentsOf, h]
        rw [if_pos h, hcons]
        cases exponentsOf name rest with
        | nil => rfl
        | cons exponent others => rfl
      · have hskip : exponentsOf name (f :: rest) = exponentsOf name rest := by
          simp [exponentsOf, h]
        rw [if_neg h, hskip]
  intro name
  exact key factors NameMap.empty name

theorem Collects.eq {factors : List (String × α)} {powers : NameMap α}
    (h : Collects factors powers) : powers = factors.foldl Literal.addPower NameMap.empty :=
  NameMap.ext fun name => (h name).trans (collects_foldl factors name).symm

/-! ### Where names end and exponents start -/

theorem StartsExponent.append {ts : List Token} (h : StartsExponent ts) (rest : List Token) :
    StartsExponent (ts ++ rest) := by
  cases h with
  | positive => exact .positive
  | negative => exact .negative

theorem not_endsInName_nil : ¬ EndsInName [] := by
  intro h
  obtain ⟨t, h, -⟩ := h
  simp at h

theorem endsInName_append_iff (ts : List Token) {us : List Token} (h : us ≠ []) :
    EndsInName (ts ++ us) ↔ EndsInName us := by
  simp [EndsInName, h]

theorem endsInName_append_cons_iff (ts : List Token) (t : Token) {us : List Token} (h : us ≠ []) :
    EndsInName (ts ++ t :: us) ↔ EndsInName us := by
  rw [endsInName_append_iff ts (by simp), ← List.singleton_append, endsInName_append_iff _ h]

theorem not_endsInName_append_singleton (ts : List Token) {t : Token}
    (h : t.kind ≠ .identifier) : ¬ EndsInName (ts ++ [t]) := by
  intro h
  obtain ⟨u, hu, hkind⟩ := h
  rw [List.getLast?_concat, Option.some.injEq] at hu
  exact h (hu ▸ hkind)

theorem not_startsExponent_of_kind {t : Token} {rest : List Token} (h : t.kind ≠ .caret) :
    ¬ StartsExponent (t :: rest) := by
  intro hs
  cases hs with
  | positive => exact h rfl
  | negative => exact h rfl

theorem ExponentOf.endsInName_cons {name : String} {s : Span} {ts : List Token} {exponent : α}
    (h : ExponentOf ts exponent) : EndsInName (⟨.identifier, name, s⟩ :: ts) ↔ ts = [] := by
  cases h <;> simp [EndsInName]

theorem SignOf.not_endsInName {ss : List Token} {negative : Bool} (h : SignOf ss negative) :
    ¬ EndsInName ss := by
  cases h <;> simp [EndsInName]

theorem NumberOf.not_endsInName {ns : List Token} {number : Option α} (h : NumberOf ns number) :
    ¬ EndsInName ns := by
  cases h <;> simp [EndsInName]

/-- A literal ends in a name if its factors do. -/
theorem endsInName_literal_iff {ss ns fs : List Token} {negative : Bool} {number : Option α}
    (hs : SignOf ss negative) (hn : NumberOf ns number) :
    EndsInName (ss ++ (ns ++ fs)) ↔ EndsInName fs := by
  by_cases hfs : fs = []
  · subst hfs
    simp only [List.append_nil, not_endsInName_nil, iff_false]
    by_cases hns : ns = []
    · rw [hns, List.append_nil]
      exact hs.not_endsInName
    · rw [endsInName_append_iff ss hns]
      exact hn.not_endsInName
  · rw [← List.append_assoc, endsInName_append_iff _ hfs]

theorem FactorOf.ne_nil {ts : List Token} {factor : String × α} (h : FactorOf ts factor) :
    ts ≠ [] := by
  cases h <;> simp

/-- Factors start with a name or a parenthesis. -/
theorem FactorsOf.not_startsExponent {ts rest : List Token} {factors : List (String × α)}
    (h : FactorsOf ts factors) (hne : factors ≠ []) : ¬ StartsExponent (ts ++ rest) := by
  cases h with
  | nil => exact absurd rfl hne
  | cons hfactor _ =>
    cases hfactor with
    | bare _ => exact not_startsExponent_of_kind (by simp)
    | parentheses _ => exact not_startsExponent_of_kind (by simp)

theorem FactorsOf.eq_nil_iff {ts : List Token} {factors : List (String × α)}
    (h : FactorsOf ts factors) : ts = [] ↔ factors = [] := by
  cases h with
  | nil => simp
  | cons hfactor _ => simp [hfactor.ne_nil]

/-- Factors start with a name or a parenthesis, so with neither a sign nor a number. -/
theorem FactorsOf.kind_head {fs us : List Token} {factors : List (String × α)} {t : Token}
    (h : FactorsOf fs factors) (hne : factors ≠ []) {rest : List Token}
    (heq : fs ++ rest = t :: us) : t.kind = .identifier ∨ t.kind = .openParen := by
  cases h with
  | nil => exact absurd rfl hne
  | cons hfactor _ =>
    cases hfactor with
    | bare _ =>
      obtain ⟨rfl, -⟩ := List.cons.inj heq
      exact Or.inl rfl
    | parentheses _ =>
      obtain ⟨rfl, -⟩ := List.cons.inj heq
      exact Or.inr rfl

/-- A literal starts with a sign, a number, a name or a parenthesis. -/
theorem LiteralOf.kind_head {first : Token} {us : List Token} {t : Term α}
    (h : LiteralOf (first :: us) t) :
    first.kind = .openParen ∨ first.kind = .number ∨ first.kind = .identifier ∨
      first.kind = .minus := by
  generalize hts : first :: us = ts at h
  obtain ⟨hs, hn, hf, hsome, -⟩ := h
  rename_i ss ns fs negative number factors powers
  cases hs with
  | minus =>
    obtain ⟨rfl, -⟩ := List.cons.inj hts
    simp
  | absent =>
    cases hn with
    | number =>
      obtain ⟨rfl, -⟩ := List.cons.inj hts
      simp
    | absent =>
      have hne : factors ≠ [] := fun hnil => by
        obtain ⟨c, hc, -⟩ := hsome hnil
        cases hc
      have hfs : fs ++ [] = first :: us := by simpa using hts.symm
      rcases hf.kind_head hne hfs with h | h <;> simp [h]

/-- A literal is neither nothing nor a lone sign. -/
theorem LiteralOf.proper {ts : List Token} {t : Term α} (h : LiteralOf ts t) :
    ts ≠ [] ∧ ∀ minus s, ts ≠ [⟨.minus, minus, s⟩] := by
  obtain ⟨hs, hn, hf, hsome, -⟩ := h
  rename_i ss ns fs negative number factors powers
  by_cases hfs : fs = []
  · -- without factors there is a number
    obtain ⟨c, hc, -⟩ := hsome (hf.eq_nil_iff.mp hfs)
    cases hn with
    | absent => cases hc
    | number => cases hs <;> simp [hfs]
  · cases hs with
    | absent =>
      cases hn with
      | number => simp
      | absent =>
        refine ⟨hfs, fun minus s heq => ?_⟩
        cases hf with
        | nil => exact hfs rfl
        | cons hfactor _ => cases hfactor <;> simp at heq
    | minus => simp [hfs]

/-- Neither is anything that operators join. -/
theorem Derives.proper {allowed : List Token → List Token → Prop} {ts : List Token}
    {e : Expr α} (h : Derives allowed .operand ts e) :
    ts ≠ [] ∧ ∀ minus s, ts ≠ [⟨.minus, minus, s⟩] := by
  cases h with
  | literal h => exact h.proper
  | parentheses _ => simp

/-- Whether an exponent starts is settled by the tokens of one operand. -/
theorem StartsExponent.of_append {allowed : List Token → List Token → Prop} {symbol : Token}
    {rs rest : List Token} {e : Expr α} (hr : Derives allowed .operand rs e)
    (h : StartsExponent (symbol :: (rs ++ rest))) : StartsExponent (symbol :: rs) := by
  obtain ⟨hne, hsign⟩ := hr.proper
  match rs, hne with
  | [t], _ =>
    cases h with
    | positive => exact .positive
    | negative => exact absurd rfl (hsign _ _)
  | t :: u :: us, _ =>
    cases h with
    | positive => exact .positive
    | negative => exact .negative

end PolyAlgebra.Grammar
