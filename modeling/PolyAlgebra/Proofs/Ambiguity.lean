/-
Preferring exponents loses nothing.

Where an operator could be a caret after a name with a number to its right, the tokens on both
sides of it are literals, and they are one literal together: the number is the exponent of the
name, and the factors after the number are factors of the whole.  So every derivation of the
grammar can be turned into one in which exponents come first, operator by operator from the
left.
-/
import PolyAlgebra.Proofs.Grammar

namespace PolyAlgebra.Grammar

variable {α : Type} [Number α]

/-- A number after the last name of some factors is an exponent of it. -/
theorem FactorsOf.absorb {fs es us : List Token} {factors factors' : List (String × α)}
    {exponent : α} (hf : FactorsOf fs factors) (hends : EndsInName fs)
    (he : ExponentOf es exponent) (hu : FactorsOf us factors') :
    ∃ factors'' : List (String × α), factors'' ≠ [] ∧ FactorsOf (fs ++ (es ++ us)) factors'' := by
  induction hf with
  | nil => exact absurd hends not_endsInName_nil
  | @cons ts vs factor factors hfactor hfactors ih =>
    by_cases hvs : vs = []
    · subst hvs
      rw [List.append_nil] at hends ⊢
      cases hfactor with
      | @bare name s ts exponent' hexponent =>
        obtain rfl := hexponent.endsInName_cons.mp hends
        refine ⟨(name, exponent) :: factors', by simp, ?_⟩
        have hmerged : FactorsOf (⟨.identifier, name, s⟩ :: es ++ us)
            ((name, exponent) :: factors') := .cons (.bare he) hu
        simpa using hmerged
      | parentheses _ =>
        exact absurd hends (not_endsInName_append_singleton (_ :: _ :: _) (by simp))
    · obtain ⟨factors'', -, h⟩ := ih ((endsInName_append_iff ts hvs).mp hends)
      refine ⟨factor :: factors'', by simp, ?_⟩
      rw [List.append_assoc]
      exact .cons hfactor h

/-- What starts with a number, and what would start an exponent after a caret, is a literal with
a number. -/
theorem exists_exponent_of_startsExponent {allowed : List Token → List Token → Prop}
    {symbol : Token} {rs : List Token} {e : Expr α} (hr : Derives allowed .operand rs e)
    (h : StartsExponent (symbol :: rs)) :
    ∃ (es us : List Token) (exponent : α) (factors : List (String × α)),
      symbol :: rs = es ++ us ∧ ExponentOf es exponent ∧ FactorsOf us factors := by
  cases hr with
  | parentheses _ => cases h
  | literal h' =>
    obtain ⟨hs, hn, hf, hsome, -⟩ := h'
    rename_i ss ns fs negative number factors powers
    have hkind : symbol.kind = .caret :=
      Decidable.byContradiction fun hkind => not_startsExponent_of_kind hkind h
    obtain ⟨kind, caret, s⟩ := symbol
    obtain rfl : kind = .caret := hkind
    cases hn with
    | number =>
      cases hs with
      | absent => exact ⟨_, fs, _, factors, rfl, .positive, hf⟩
      | minus => exact ⟨_, fs, _, factors, rfl, .negative, hf⟩
    | absent =>
      have hne : factors ≠ [] := fun hnil => by
        obtain ⟨c, hc, -⟩ := hsome hnil
        cases hc
      cases hf with
      | nil => exact absurd rfl hne
      | cons hfactor _ =>
        -- a sign and a number are what could start an exponent, but a factor comes first
        cases hs <;> cases hfactor <;>
          simp only [List.nil_append, List.cons_append] at h <;> cases h

/-- A literal that ends in a name takes up what would start its exponent. -/
theorem LiteralOf.absorb {allowed : List Token → List Token → Prop} {ls rs : List Token}
    {t : Term α} {symbol : Token} {e : Expr α} (hl : LiteralOf ls t) (hends : EndsInName ls)
    (hr : Derives allowed .operand rs e) (h : StartsExponent (symbol :: rs)) :
    ∃ t' : Term α, LiteralOf (ls ++ symbol :: rs) t' := by
  obtain ⟨es, us, exponent, factors', htokens, hexponent, hfactors'⟩ :=
    exists_exponent_of_startsExponent hr h
  obtain ⟨hs, hn, hf, -, -⟩ := hl
  obtain ⟨factors, hne, hfactors⟩ :=
    hf.absorb ((endsInName_literal_iff hs hn).mp hends) hexponent hfactors'
  rw [htokens, List.append_assoc, List.append_assoc]
  exact ⟨_, .intro hs hn hfactors (fun hnil => absurd hnil hne) (collects_foldl _)⟩

/-- So does an expression, whose last operand is a literal then. -/
theorem Derives.absorb {ls rs : List Token} {left right : Expr α} {symbol : Token}
    (hl : Derives ExponentsFirst .expression ls left) (hends : EndsInName ls)
    (hr : Derives ExponentsFirst .operand rs right) (h : StartsExponent (symbol :: rs)) :
    ∃ e : Expr α, Derives ExponentsFirst .expression (ls ++ symbol :: rs) e := by
  have hoperand : ∀ {us : List Token} {e : Expr α}, Derives ExponentsFirst .operand us e →
      EndsInName us → ∃ e' : Expr α, Derives ExponentsFirst .operand (us ++ symbol :: rs) e' := by
    intro us e hus hends
    cases hus with
    | literal hliteral =>
      obtain ⟨t, ht⟩ := hliteral.absorb hends hr h
      exact ⟨_, .literal ht⟩
    | parentheses _ =>
      exact absurd hends (not_endsInName_append_singleton (_ :: _) (by simp))
  cases hl with
  | operand hl =>
    obtain ⟨e, he⟩ := hoperand hl hends
    exact ⟨e, he.operand⟩
  | @chain ls us left' right' op symbol' hl hu hop ha =>
    rw [endsInName_append_cons_iff ls _ hu.proper.1] at hends
    obtain ⟨e, he⟩ := hoperand hu hends
    refine ⟨.binary op left' e, ?_⟩
    rw [List.append_assoc, List.cons_append]
    exact .chain hl he hop fun hends' hstarts => ha hends' (hstarts.of_append hu)

/-- **Every derivation can be turned into one with exponents first.** -/
theorem Derives.exponentsFirst {rule : Rule} {ts : List Token} {e : Expr α}
    (h : Derives (fun _ _ => True) rule ts e) :
    ∃ e' : Expr α, Derives ExponentsFirst rule ts e' := by
  induction h with
  | literal h => exact ⟨_, .literal h⟩
  | parentheses _ ih =>
    obtain ⟨e', he'⟩ := ih
    exact ⟨e', .parentheses he'⟩
  | operand _ ih =>
    obtain ⟨e', he'⟩ := ih
    exact ⟨e', he'.operand⟩
  | @chain ls rs left right op symbol _ _ hop _ ihl ihr =>
    obtain ⟨left', hl⟩ := ihl
    obtain ⟨right', hr⟩ := ihr
    by_cases h : EndsInName ls ∧ StartsExponent (symbol :: rs)
    · exact hl.absorb h.1 hr h.2
    · exact ⟨_, .chain hl hr hop fun hends hstarts => h ⟨hends, hstarts⟩⟩

theorem Derives.forget {allowed : List Token → List Token → Prop} {rule : Rule}
    {ts : List Token} {e : Expr α} (h : Derives allowed rule ts e) :
    Derives (fun _ _ => True) rule ts e := by
  induction h with
  | literal h => exact .literal h
  | parentheses _ ih => exact .parentheses ih
  | operand _ ih => exact .operand ih
  | chain _ _ hop _ ihl ihr => exact .chain ihl ihr hop trivial

/-- Tokens of the grammar are those that are read as some expression. -/
theorem derivable_iff_reads (ts : List Token) :
    Derivable α ts ↔ ∃ e : Expr α, Reads ts e := by
  constructor
  · intro h
    obtain ⟨e, he⟩ := h
    exact he.exponentsFirst
  · intro h
    obtain ⟨e, he⟩ := h
    exact ⟨e, he.forget⟩

end PolyAlgebra.Grammar
