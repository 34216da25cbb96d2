/-
What it takes for an expression to collapse.

One lemma for each kind of expression says when collapsing it succeeds and with which terms.
Facts about sums that expressions collapse into are proved from these and from what the
operations on sums do, without going through `collapse` again.
-/
import Mathlib
import PolyAlgebra.Expr.Collapse
import PolyAlgebra.Proofs.Outcome

namespace PolyAlgebra.Expr

variable {α : Type} [Number α]

/-- An operation collapses unless it is a power, if both operands do and their sums can be
combined. -/
theorem collapse_binary_eq_ok_iff {op : Operator} {left right : Expr α} {terms : List (Term α)} :
    (Expr.binary op left right).collapse = .ok terms ↔ op ≠ .power ∧
      ∃ l r, left.collapse = .ok l ∧ right.collapse = .ok r ∧
        TermSum.combine op l r = .ok terms := by
  rw [collapse]
  split
  · rename_i hop
    constructor
    · intro h
      cases h
    · intro h
      exact absurd hop h.1
  · rename_i hop
    simp only [bind_eq_ok_iff]
    constructor
    · intro h
      obtain ⟨l, hl, r, hr, h⟩ := h
      exact ⟨hop, l, r, hl, hr, h⟩
    · intro h
      obtain ⟨-, l, r, hl, hr, h⟩ := h
      exact ⟨l, hl, r, hr, h⟩

/-- A call collapses into its value, if the arguments collapse into constants and the function
takes so many. -/
theorem collapse_call_eq_ok_iff {f : Elementary} {arguments : List (Expr α)}
    {terms : List (Term α)} :
    (Expr.call f arguments).collapse = .ok terms ↔ ∃ numbers x,
      constants arguments = .ok numbers ∧ Number.apply f numbers = some x ∧
        TermSum.ofNumber x = terms := by
  rw [collapse, bind_eq_ok_iff]
  constructor
  · intro h
    obtain ⟨numbers, hnumbers, h⟩ := h
    cases hx : Number.apply f numbers with
    | none =>
      rw [hx] at h
      cases h
    | some x =>
      rw [hx] at h
      exact ⟨numbers, x, hnumbers, hx, Except.ok.inj h⟩
  · intro h
    obtain ⟨numbers, x, hnumbers, hx, rfl⟩ := h
    refine ⟨numbers, hnumbers, ?_⟩
    rw [hx]

theorem constants_cons_eq_ok_iff {e : Expr α} {rest : List (Expr α)} {numbers : List α} :
    constants (e :: rest) = .ok numbers ↔ ∃ terms others, e.collapse = .ok terms ∧
      TermSum.isConstant terms = true ∧ constants rest = .ok others ∧
        TermSum.coefficientTotal terms :: others = numbers := by
  rw [constants, bind_eq_ok_iff]
  constructor
  · intro h
    obtain ⟨terms, hterms, h⟩ := h
    split at h
    · rename_i hconstant
      obtain ⟨others, hothers, h⟩ := bind_eq_ok_iff.mp h
      exact ⟨terms, others, hterms, hconstant, hothers, Except.ok.inj h⟩
    · cases h
  · intro h
    obtain ⟨terms, others, hterms, hconstant, hothers, rfl⟩ := h
    refine ⟨terms, hterms, ?_⟩
    rw [if_pos hconstant, hothers]
    rfl

theorem trySimplify_eq_some_iff {e r : Expr α} :
    e.trySimplify = some r ↔ ∃ terms, e.collapse = .ok terms ∧ .sum terms = r := by
  rw [trySimplify, Option.map_eq_some_iff]
  cases e.collapse with
  | error obstacle => simp [Except.toOption]
  | ok terms => simp [Except.toOption]

theorem isSome_trySimplify_iff {e : Expr α} :
    e.trySimplify.isSome = true ↔ ∃ terms, e.collapse = .ok terms := by
  rw [trySimplify]
  cases e.collapse with
  | error obstacle => simp [Except.toOption]
  | ok terms => simp [Except.toOption]

theorem trySimplify_of_error {e : Expr α} {obstacle : Obstacle α}
    (h : e.collapse = .error obstacle) : e.trySimplify = none := by
  rw [trySimplify, h]
  rfl

/-- What collapses is simplified into the sum it collapses into. -/
theorem simplify_of_collapse {e : Expr α} {terms : TermSum α} (h : e.collapse = .ok terms) :
    e.simplify = .sum terms := by
  cases e with
  | sum raw =>
    obtain rfl := Except.ok.inj h
    rw [simplify, ofTerms]
  | binary op left right => rw [simplify, h]
  | call f arguments => rw [simplify, h]

end PolyAlgebra.Expr
