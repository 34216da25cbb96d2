/-
What passes from an expression to the results of operations.

Simplifying either collapses an expression into one sum or goes on to its operands, and the rules
for derivatives do nothing but simplify operations on what they have.  So a property of results has
to be looked at in two places only: at the sums that expressions collapse into, and where operands
are put together again.  That every result has it then follows here once for all properties.
-/
import Mathlib
import PolyAlgebra.Calculus
import PolyAlgebra.Proofs.Collapsing

namespace PolyAlgebra.Expr

variable {α : Type} [Number α]

/-- What is assumed of expressions, and what therefore holds of the results of operations.  The
second may say more than the first, and it must not say less, since results are operated on. -/
structure Establishes (P Q : Expr α → Prop) : Prop where
  weaken : ∀ {e : Expr α}, Q e → P e
  operands : ∀ {op : Operator} {left right : Expr α},
    P (.binary op left right) ↔ P left ∧ P right
  binary : ∀ {op : Operator} {left right : Expr α},
    Q left → Q right → Q (.binary op left right)
  call_map : ∀ {f : Elementary} {arguments : List (Expr α)} {g : Expr α → Expr α},
    P (.call f arguments) → (∀ e ∈ arguments, P e → Q (g e)) → Q (.call f (arguments.map g))
  collapse : ∀ {e : Expr α} {terms : List (Term α)},
    P e → e.collapse = .ok terms → Q (.sum terms)
  zero : Q zero

namespace Establishes

variable {P Q : Expr α → Prop} (h : Establishes P Q)

include h

/-! ### Simplifying -/

theorem simplify {e : Expr α} (he : P e) : Q e.simplify := by
  induction e using Expr.induct with
  | sum terms => exact h.collapse he rfl
  | binary op left right ihl ihr =>
    rw [Expr.simplify]
    split
    · rename_i terms hterms
      exact h.collapse he hterms
    · obtain ⟨hl, hr⟩ := h.operands.mp he
      exact h.binary (ihl hl) (ihr hr)
  | call f arguments ih =>
    rw [Expr.simplify]
    split
    · rename_i terms hterms
      exact h.collapse he hterms
    · rw [simplifyAll_eq_map]
      exact h.call_map he ih

theorem simplify_binary (op : Operator) {left right : Expr α} (hl : P left) (hr : P right) :
    Q (Expr.simplify (.binary op left right)) :=
  h.simplify (h.operands.mpr ⟨hl, hr⟩)

theorem trySimplify {e r : Expr α} (he : P e) (hr : e.trySimplify = some r) : Q r := by
  obtain ⟨terms, hterms, rfl⟩ := trySimplify_eq_some_iff.mp hr
  exact h.collapse he hterms

/-- What does not collapse and is kept must be a result already. -/
theorem getD_trySimplify {e : Expr α} (he : Q e) : Q (e.trySimplify.getD e) := by
  cases hr : e.trySimplify with
  | none => exact he
  | some r => exact h.trySimplify (h.weaken he) hr

/-! ### Derivatives -/

theorem quotientDerivative {left right dleft dright : Expr α} (hl : P left) (hr : P right)
    (hdl : Q dleft) (hdr : Q dright) :
    Q (combineDerivatives.quotientDerivative left right dleft dright) := by
  have hnumerator := h.simplify_binary .subtract
    (h.weaken (h.simplify_binary .multiply hr (h.weaken hdl)))
    (h.weaken (h.simplify_binary .multiply hl (h.weaken hdr)))
  have hdenominator := h.simplify_binary .multiply hr hr
  rw [combineDerivatives.quotientDerivative]
  dsimp only
  split
  · exact h.zero
  · exact h.getD_trySimplify (h.binary hnumerator hdenominator)

theorem combineDerivatives {op : Operator} {left right dleft dright d : Expr α} (hl : P left)
    (hr : P right) (hdl : Q dleft) (hdr : Q dright)
    (hd : Expr.combineDerivatives op left right dleft dright = .ok d) : Q d := by
  cases op with
  | add =>
    obtain rfl := Except.ok.inj hd
    exact h.simplify_binary .add (h.weaken hdl) (h.weaken hdr)
  | subtract =>
    obtain rfl := Except.ok.inj hd
    exact h.simplify_binary .subtract (h.weaken hdl) (h.weaken hdr)
  | multiply =>
    obtain rfl := Except.ok.inj hd
    exact h.simplify_binary .add (h.weaken (h.simplify_binary .multiply hl (h.weaken hdr)))
      (h.weaken (h.simplify_binary .multiply hr (h.weaken hdl)))
  | divide =>
    obtain rfl := Except.ok.inj hd
    exact h.quotientDerivative hl hr hdl hdr
  | power => cases hd

/-- **A derivative is a result**, if that of every sum is. -/
theorem differentiate {name : String}
    (sum : ∀ terms : List (Term α), P (.sum terms) →
      Q (ofTerms (terms.map (fun t => t.differentiate name))))
    {e d : Expr α} (he : P e) (hd : e.differentiate name = .ok d) : Q d := by
  induction e using Expr.induct generalizing d with
  | sum terms =>
    obtain rfl := Except.ok.inj hd
    exact sum terms he
  | binary op left right ihl ihr =>
    obtain ⟨hl, hr⟩ := h.operands.mp he
    rw [Expr.differentiate] at hd
    split at hd
    · cases hd
    · obtain ⟨dleft, hdl, hd⟩ := bind_eq_ok_iff.mp hd
      obtain ⟨dright, hdr, hd⟩ := bind_eq_ok_iff.mp hd
      exact h.combineDerivatives hl hr (ihl hl hdl) (ihr hr hdr) hd
  | call f arguments _ => cases hd

end Establishes

end PolyAlgebra.Expr
