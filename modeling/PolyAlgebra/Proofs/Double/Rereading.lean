/-
Reading back what simplifying a sum gives.

Simplifying keeps the names and the exponents of a sum, so what it gives can be printed and read
back as long as no coefficient has grown out of range.  One simplified sum is not read back: the
sum of which nothing is left.  It is written as a zero, and a zero is no literal.
-/
import PolyAlgebra.Proofs.Double.Printing

namespace PolyAlgebra

/-- A sum that is not zero can be printed after it is simplified. -/
theorem Expr.printable_reduce {α : Type} [Number α] {terms : TermSum α}
    (hexponents : ∀ t ∈ terms, ∀ name exponent, t.powers.get? name = some exponent →
      Number.isFinite exponent = true)
    (hnames : ∀ t ∈ terms, ∀ name exponent, t.powers.get? name = some exponent →
      name ≠ "" ∧ ∀ c ∈ name.toList, Text.isAlphabetic c = true)
    (hcoefficients : ∀ t ∈ TermSum.reduce terms, Number.isFinite t.coefficient = true)
    (hne : TermSum.reduce terms ≠ [Term.zero]) : (Expr.sum (TermSum.reduce terms)).Printable :=
  .sum ⟨terms, rfl⟩ hne hcoefficients (TermSum.forall_powers_reduce hexponents)
    (TermSum.forall_powers_reduce hnames)

/-- The zero sum is written as a zero. -/
theorem Expr.text_zero {α : Type} [Number α] [OrderedNumber α] : (zero : Expr α).text = "0" := by
  have hfilter : [(Term.zero : Term α)].filter (fun t => !t.isZero) = [] := by
    simp [Term.isZero_zero]
  rw [zero, text, TermSum.text, hfilter]
  rfl

/-- A zero is no literal. -/
theorem Expr.parse_zero :
    (Expr.parse "0" : Except ParseError (Expr Float)) = .error (.invalidLiteral ⟨0, 1⟩) := by
  have hvariables : Expr.variableNames <$> (Expr.parse "0" : Except ParseError (Expr Float))
      = .error (.invalidLiteral ⟨0, 1⟩) := by decide +kernel
  cases hparse : (Expr.parse "0" : Except ParseError (Expr Float)) with
  | ok e =>
    rw [hparse] at hvariables
    cases hvariables
  | error e =>
    rw [hparse] at hvariables
    rw [Except.error.inj hvariables]

/-- **A simplified sum is read back exactly unless it is zero.**  What is read simplifies to the
same terms in the same order.  The zero sum is refused. -/
theorem Expr.parse_text_simplified {terms : TermSum Float}
    (hexponents : ∀ t ∈ terms, ∀ name exponent, t.powers.get? name = some exponent →
      Number.isFinite exponent = true)
    (hnames : ∀ t ∈ terms, ∀ name exponent, t.powers.get? name = some exponent →
      name ≠ "" ∧ ∀ c ∈ name.toList, Text.isAlphabetic c = true)
    (hcoefficients : ∀ t ∈ TermSum.reduce terms, Number.isFinite t.coefficient = true) :
    ((Expr.sum terms).simplify ≠ zero → ∃ p, Expr.parse (Expr.sum terms).simplify.text = .ok p ∧
        p.simplify = (Expr.sum terms).simplify) ∧
      ((Expr.sum terms).simplify = zero → (Expr.sum terms).simplify.text = "0" ∧
        (Expr.parse "0" : Except ParseError (Expr Float)) = .error (.invalidLiteral ⟨0, 1⟩)) := by
  constructor
  · intro hne
    have hterms : TermSum.reduce terms ≠ [Term.zero] := fun h => hne (congrArg Expr.sum h)
    have hprintable := printable_reduce hexponents hnames hcoefficients hterms
    obtain ⟨p, hp, -, hsimplify⟩ := parse_text hprintable
    refine ⟨p, hp, ?_⟩
    rw [hsimplify, simplify, simplify, ofTerms, ofTerms,
      (TermSum.printable_of_leaf hprintable).reduce_eq]
  · intro hzero
    rw [hzero]
    exact ⟨text_zero, parse_zero⟩

/-- A name of a single letter, for terms whose names can be listed. -/
theorem Term.letter_of_entries {t : Term Float}
    (h : ∀ entry ∈ t.powers.entries, entry.1 = "x" ∨ entry.1 = "y") :
    ∀ name exponent, t.powers.get? name = some exponent →
      name ≠ "" ∧ ∀ c ∈ name.toList, Text.isAlphabetic c = true := by
  intro name exponent hget
  rcases h _ ((t.powers.mem_entries_iff _ _).mpr hget) with h | h <;> cases h
  · exact ⟨by decide, by simp; decide⟩
  · exact ⟨by decide, by simp; decide⟩

/-- A raw sum in which terms merge, cancel and change places. -/
theorem Expr.parse_text_simplified_merging :
    let terms : TermSum Float := [.ofNumber 0.1, .ofPowers 2.5 [("y", -1), ("x", 0.5)],
      .ofName "x", .ofNumber 0.2, .ofPowers (-1) [("x", 1)], .ofPowers (-3) [("x", 2)]]
    ((∀ t ∈ terms, ∀ name exponent, t.powers.get? name = some exponent →
        Number.isFinite exponent = true) ∧
      (∀ t ∈ terms, ∀ name exponent, t.powers.get? name = some exponent →
        name ≠ "" ∧ ∀ c ∈ name.toList, Text.isAlphabetic c = true) ∧
      ∀ t ∈ TermSum.reduce terms, Number.isFinite t.coefficient = true) ∧
    ((Expr.sum terms).simplify ≠ zero → ∃ p, Expr.parse (Expr.sum terms).simplify.text = .ok p ∧
        p.simplify = (Expr.sum terms).simplify) ∧
      ((Expr.sum terms).simplify = zero → (Expr.sum terms).simplify.text = "0" ∧
        (Expr.parse "0" : Except ParseError (Expr Float)) = .error (.invalidLiteral ⟨0, 1⟩)) := by
  intro terms
  have hexponents : ∀ t ∈ terms, ∀ entry ∈ t.powers.entries, Number.isFinite entry.2 = true := by
    decide +kernel
  have hletters : ∀ t ∈ terms, ∀ entry ∈ t.powers.entries, entry.1 = "x" ∨ entry.1 = "y" := by
    decide +kernel
  have hfinite : ∀ t ∈ terms, ∀ name exponent, t.powers.get? name = some exponent →
      Number.isFinite exponent = true := fun t ht name exponent hget =>
    hexponents t ht (name, exponent) ((t.powers.mem_entries_iff name exponent).mpr hget)
  have hnames := fun t ht => Term.letter_of_entries (hletters t ht)
  have hcoefficients : ∀ t ∈ TermSum.reduce terms, Number.isFinite t.coefficient = true := by
    decide +kernel
  exact ⟨⟨hfinite, hnames, hcoefficients⟩,
    parse_text_simplified hfinite hnames hcoefficients⟩

/-- Finite numbers and names of letters are not enough.  Terms may cancel, and the zero that is
left is refused.  Coefficients may add up to infinity, and then the text is read as the name of
another variable. -/
theorem Expr.parse_text_simplified_cancelling :
    let cancelling : TermSum Float := [.ofName "x", .ofPowers (-1) [("x", 1)]]
    let growing : TermSum Float := [.ofPowers 1e308 [("x", 1)], .ofPowers 1e308 [("x", 1)]]
    (∀ t ∈ cancelling ++ growing, Number.isFinite t.coefficient = true ∧
      ∀ name exponent, t.powers.get? name = some exponent →
        Number.isFinite exponent = true ∧ name ≠ "" ∧
          ∀ c ∈ name.toList, Text.isAlphabetic c = true) ∧
    Expr.parse (Expr.sum cancelling).simplify.text
      = (.error (.invalidLiteral ⟨0, 1⟩) : Except ParseError (Expr Float)) ∧
    ∃ p, Expr.parse (Expr.sum growing).simplify.text = .ok p ∧
      p.simplify ≠ (Expr.sum growing).simplify := by
  intro cancelling growing
  refine ⟨?_, ?_, ?_⟩
  · have hfinite : ∀ t ∈ cancelling ++ growing, Number.isFinite t.coefficient = true ∧
        ∀ entry ∈ t.powers.entries, Number.isFinite entry.2 = true := by decide +kernel
    have hletters : ∀ t ∈ cancelling ++ growing, ∀ entry ∈ t.powers.entries,
        entry.1 = "x" ∨ entry.1 = "y" := by decide +kernel
    refine fun t ht => ⟨(hfinite t ht).1, fun name exponent hget => ⟨?_, ?_⟩⟩
    · have hentry := (t.powers.mem_entries_iff name exponent).mpr hget
      exact (hfinite t ht).2 (name, exponent) hentry
    · exact Term.letter_of_entries (hletters t ht) name exponent hget
  · have htext : (Expr.sum cancelling).simplify.text = "0" := by decide +kernel
    rw [htext, parse_zero]
  · have hread : (fun p => p.simplify.variableNames)
        <$> (Expr.parse (Expr.sum growing).simplify.text : Except ParseError (Expr Float))
          = .ok ["infx"] := by decide +kernel
    obtain ⟨p, hp, hnames⟩ := map_eq_ok_iff.mp hread
    refine ⟨p, hp, fun heq => ?_⟩
    have hsimplified : (Expr.sum growing).simplify.variableNames = ["x"] := by decide +kernel
    rw [heq, hsimplified] at hnames
    exact absurd hnames (by decide)

end PolyAlgebra
