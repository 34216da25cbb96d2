/-
Reading literals follows the grammar.

For each reader there are two statements.  What it reads spans tokens that the grammar derives
for it, and what it leaves does not start with an exponent that a name before it could have
taken.  Conversely tokens that the grammar derives are read in full, whatever comes after
them, as long as that could not belong to a literal.
-/
import PolyAlgebra.Proofs.Grammar

namespace PolyAlgebra.Grammar

variable {α : Type} [Number α]

/-! ### Exponents -/

theorem readExponent_sound (tokens : List Token) :
    ∃ ts, tokens = ts ++ (Literal.readExponent (α := α) tokens).2 ∧
      ExponentOf ts (Literal.readExponent (α := α) tokens).1 ∧
      (ts = [] → ¬ StartsExponent tokens) := by
  unfold Literal.readExponent
  split
  · rename_i caret s₁ digits s₂ rest
    exact ⟨[⟨.caret, caret, s₁⟩, ⟨.number, digits, s₂⟩], rfl, .positive, by simp⟩
  · rename_i caret s₁ minus s₂ digits s₃ rest
    exact ⟨[⟨.caret, caret, s₁⟩, ⟨.minus, minus, s₂⟩, ⟨.number, digits, s₃⟩], rfl, .negative,
      by simp⟩
  · rename_i hpositive hnegative
    refine ⟨[], rfl, .absent, fun _ h => ?_⟩
    cases h with
    | positive => exact hpositive _ _ _ _ _ rfl
    | negative => exact hnegative _ _ _ _ _ _ _ rfl

theorem readExponent_of_not_starts {tokens : List Token} (h : ¬ StartsExponent tokens) :
    Literal.readExponent (α := α) tokens = (1, tokens) := by
  unfold Literal.readExponent
  split
  · exact absurd .positive h
  · exact absurd .negative h
  · rfl

theorem readExponent_complete {ts rest : List Token} {exponent : α}
    (h : ExponentOf ts exponent) (hrest : ts = [] → ¬ StartsExponent rest) :
    Literal.readExponent (ts ++ rest) = (exponent, rest) := by
  cases h with
  | absent => exact readExponent_of_not_starts (hrest rfl)
  | positive => rfl
  | negative => rfl

/-! ### Factors -/

theorem readFactor?_sound {tokens rest : List Token} {factor : String × α}
    (h : Literal.readFactor? tokens = some (factor, rest)) :
    ∃ ts, tokens = ts ++ rest ∧ FactorOf ts factor ∧ ExponentsFirst ts rest := by
  unfold Literal.readFactor? at h
  split at h
  · rename_i name s tokens
    obtain ⟨ts, htokens, hexponent, hstarts⟩ := readExponent_sound (α := α) tokens
    simp only [Option.some.injEq, Prod.mk.injEq] at h
    obtain ⟨rfl, rfl⟩ := h
    refine ⟨⟨.identifier, name, s⟩ :: ts, congrArg (_ :: ·) htokens, .bare hexponent, ?_⟩
    intro hends
    have hnil : ts = [] := hexponent.endsInName_cons.mp hends
    rw [hnil, List.nil_append] at htokens
    exact htokens ▸ hstarts hnil
  · rename_i opening s₁ name s₂ tokens
    obtain ⟨ts, htokens, hexponent, -⟩ := readExponent_sound (α := α) tokens
    split at h
    · rename_i exponent closing s₃ rest' hread
      simp only [Option.some.injEq, Prod.mk.injEq] at h
      obtain ⟨rfl, rfl⟩ := h
      rw [hread] at htokens hexponent
      refine ⟨⟨.openParen, opening, s₁⟩ :: ⟨.identifier, name, s₂⟩ ::
        (ts ++ [⟨.closeParen, closing, s₃⟩]), by simp [htokens], .parentheses hexponent, ?_⟩
      intro hends
      exact absurd hends (not_endsInName_append_singleton (_ :: _ :: ts) (by simp))
    · cases h
  · cases h

theorem readFactor?_complete {ts rest : List Token} {factor : String × α}
    (h : FactorOf ts factor) (hrest : ExponentsFirst ts rest) :
    Literal.readFactor? (ts ++ rest) = some (factor, rest) := by
  cases h with
  | @bare name s ts exponent hexponent =>
    have hread := readExponent_complete hexponent
      fun hnil => hrest (hexponent.endsInName_cons.mpr hnil)
    simp only [List.cons_append, Literal.readFactor?, hread]
  | @parentheses opening name closing s₁ s₂ s₃ ts exponent hexponent =>
    have hclosing : ts = [] → ¬ StartsExponent (⟨.closeParen, closing, s₃⟩ :: rest) :=
      fun _ => not_startsExponent_of_kind (by simp)
    have hread := readExponent_complete hexponent hclosing
    simp only [List.cons_append, List.append_assoc, List.nil_append, Literal.readFactor?, hread]

/-- No factor starts where a literal may end. -/
theorem readFactor?_of_follows {rest : List Token} (h : Follows rest) :
    Literal.readFactor? (α := α) rest = none := by
  unfold Literal.readFactor?
  split
  · simp [Follows, TokenKind.operator?] at h
  · simp [Follows, TokenKind.operator?] at h
  · rfl

theorem readFactors_sound {bound : Nat} {tokens rest : List Token}
    {factors : List (String × α)} (h : Literal.readFactors bound tokens = (factors, rest)) :
    ∃ ts, tokens = ts ++ rest ∧ FactorsOf ts factors ∧ ExponentsFirst ts rest := by
  induction bound generalizing tokens factors with
  | zero =>
    simp only [Literal.readFactors, Prod.mk.injEq] at h
    obtain ⟨rfl, rfl⟩ := h
    exact ⟨[], rfl, .nil, fun hends => absurd hends not_endsInName_nil⟩
  | succ bound ih =>
    rw [Literal.readFactors] at h
    split at h
    · rename_i factor rest' hfactor
      obtain ⟨ts, rfl, hts, hfirst⟩ := readFactor?_sound hfactor
      simp only [Prod.mk.injEq] at h
      obtain ⟨rfl, rfl⟩ := h
      obtain ⟨us, hrest', hus, hfirst'⟩ := @ih rest' _ rfl
      refine ⟨ts ++ us, by rw [List.append_assoc, ← hrest'], .cons hts hus, fun hends => ?_⟩
      by_cases hnil : us = []
      · rw [hnil, List.nil_append] at hrest'
        rw [hnil, List.append_nil] at hends
        exact hrest' ▸ hfirst hends
      · exact hfirst' ((endsInName_append_iff ts hnil).mp hends)
    · simp only [Prod.mk.injEq] at h
      obtain ⟨rfl, rfl⟩ := h
      exact ⟨[], rfl, .nil, fun hends => absurd hends not_endsInName_nil⟩

theorem readFactors_complete {ts rest : List Token} {factors : List (String × α)}
    (h : FactorsOf ts factors) (hfirst : ExponentsFirst ts rest) (hrest : Follows rest)
    {bound : Nat} (hbound : (ts ++ rest).length ≤ bound) :
    Literal.readFactors bound (ts ++ rest) = (factors, rest) := by
  induction h generalizing bound with
  | nil =>
    cases bound with
    | zero => rfl
    | succ bound => rw [List.nil_append, Literal.readFactors, readFactor?_of_follows hrest]
  | @cons ts us factor factors hfactor hfactors ih =>
    have hpos : 0 < ts.length := List.length_pos_iff.mpr hfactor.ne_nil
    simp only [List.length_append] at hbound
    obtain ⟨bound, rfl⟩ : ∃ b, bound = b + 1 := ⟨bound - 1, by omega⟩
    have hnext : ExponentsFirst ts (us ++ rest) := by
      intro hends
      by_cases hnil : us = []
      · rw [hnil, List.append_nil] at hfirst
        rw [hnil, List.nil_append]
        exact hfirst hends
      · exact hfactors.not_startsExponent fun h => hnil (hfactors.eq_nil_iff.mpr h)
    have hlater : ExponentsFirst us rest := by
      intro hends
      refine hfirst ((endsInName_append_iff ts ?_).mpr hends)
      rintro rfl
      exact not_endsInName_nil hends
    rw [List.append_assoc, Literal.readFactors, readFactor?_complete hfactor hnext]
    simp only
    rw [ih hlater (by simp only [List.length_append]; omega)]

/-! ### Literals -/

theorem readSign_sound (tokens : List Token) :
    ∃ ss, tokens = ss ++ (Literal.readSign tokens).2 ∧ SignOf ss (Literal.readSign tokens).1 := by
  unfold Literal.readSign
  split
  · rename_i minus s rest
    exact ⟨[⟨.minus, minus, s⟩], rfl, .minus⟩
  · exact ⟨[], rfl, .absent⟩

theorem readNumber?_sound (tokens : List Token) :
    ∃ ns, tokens = ns ++ (Literal.readNumber? (α := α) tokens).2 ∧
      NumberOf ns (Literal.readNumber? (α := α) tokens).1 := by
  unfold Literal.readNumber?
  split
  · rename_i digits s rest
    exact ⟨[⟨.number, digits, s⟩], rfl, .number⟩
  · exact ⟨[], rfl, .absent⟩

theorem coefficient?_eq_some_iff {number : Option α} {factors : List (String × α)} {c : α} :
    Literal.coefficient? number factors = some c ↔
      (factors = [] → ∃ d, number = some d ∧ (d == 0) = false) ∧ number.getD 1 = c := by
  cases number with
  | none => cases factors <;> simp [Literal.coefficient?]
  | some d => cases factors <;> simp [Literal.coefficient?]

/-- **What is read as a literal is one.** -/
theorem readLiteral_sound {stop : Nat} {tokens rest : List Token} {t : Term α}
    (h : Literal.read stop tokens = .ok (t, rest)) :
    ∃ ts, tokens = ts ++ rest ∧ LiteralOf ts t ∧ ExponentsFirst ts rest := by
  obtain ⟨ss, htokens, hs⟩ := readSign_sound tokens
  obtain ⟨ns, hafter, hn⟩ := readNumber?_sound (α := α) (Literal.readSign tokens).2
  unfold Literal.read at h
  simp only at h
  generalize hsign : Literal.readSign tokens = sign at h htokens hs hafter hn
  generalize hnumber : Literal.readNumber? (α := α) sign.2 = number at h hafter hn
  generalize hfactors : Literal.readFactors (α := α) number.2.length number.2 = factors at h
  obtain ⟨fs, hrest, hf, hfirst⟩ := readFactors_sound hfactors
  split at h
  · rename_i term hterm
    simp only [Except.ok.injEq, Prod.mk.injEq] at h
    obtain ⟨rfl, rfl⟩ := h
    obtain ⟨c, hc, rfl⟩ := Option.map_eq_some_iff.mp hterm
    obtain ⟨hsome, rfl⟩ := coefficient?_eq_some_iff.mp hc
    refine ⟨ss ++ (ns ++ fs), ?_, .intro hs hn hf hsome (collects_foldl _), ?_⟩
    · rw [List.append_assoc, List.append_assoc, ← hrest, ← hafter, ← htokens]
    · intro hends
      exact hfirst ((endsInName_literal_iff hs hn).mp hends)
  · cases h

theorem readSign_complete {ss rest : List Token} {negative : Bool} (h : SignOf ss negative)
    (hrest : ∀ t us, rest = t :: us → t.kind ≠ .minus) :
    Literal.readSign (ss ++ rest) = (negative, rest) := by
  cases h with
  | absent =>
    rw [List.nil_append]
    unfold Literal.readSign
    split
    · exact absurd rfl (hrest _ _ rfl)
    · rfl
  | minus => rfl

theorem readNumber?_complete {ns rest : List Token} {number : Option α} (h : NumberOf ns number)
    (hrest : ∀ t us, rest = t :: us → t.kind ≠ .number) :
    Literal.readNumber? (ns ++ rest) = (number, rest) := by
  cases h with
  | absent =>
    rw [List.nil_append]
    unfold Literal.readNumber?
    split
    · exact absurd rfl (hrest _ _ rfl)
    · rfl
  | number => rfl

/-- **A literal is read in full.** -/
theorem readLiteral_complete (stop : Nat) {ts rest : List Token} {t : Term α}
    (h : LiteralOf ts t) (hfirst : ExponentsFirst ts rest) (hrest : Follows rest) :
    Literal.read stop (ts ++ rest) = .ok (t, rest) := by
  obtain ⟨hs, hn, hf, hsome, hp⟩ := h
  rename_i ss ns fs negative number factors powers
  have hnumber : ∀ u us, fs ++ rest = u :: us → u.kind ≠ .number := by
    intro u us heq hkind
    by_cases hne : factors = []
    · rw [hf.eq_nil_iff.mpr hne, List.nil_append] at heq
      simp [heq, Follows, hkind, TokenKind.operator?] at hrest
    · rcases hf.kind_head hne heq with h | h <;> simp [hkind] at h
  have hsign : ∀ u us, ns ++ (fs ++ rest) = u :: us → u.kind ≠ .minus := by
    intro u us heq hkind
    cases hn with
    | number =>
      obtain ⟨rfl, -⟩ := List.cons.inj heq
      cases hkind
    | absent =>
      -- without a number there is a factor
      have hne : factors ≠ [] := fun hnil => by
        obtain ⟨c, hc, -⟩ := hsome hnil
        cases hc
      rcases hf.kind_head hne heq with h | h <;> simp [hkind] at h
  have hfactors := readFactors_complete hf
    (fun hends => hfirst ((endsInName_literal_iff hs hn).mpr hends)) hrest (Nat.le_refl _)
  have hterm : Literal.term? negative number factors
      = some (Term.normalise (if negative then -number.getD 1 else number.getD 1) powers) := by
    rw [Literal.term?, coefficient?_eq_some_iff.mpr ⟨hsome, rfl⟩, hp.eq]
    rfl
  unfold Literal.read
  simp only [List.append_assoc, readSign_complete hs hsign, readNumber?_complete hn hnumber,
    hfactors, hterm]

end PolyAlgebra.Grammar
