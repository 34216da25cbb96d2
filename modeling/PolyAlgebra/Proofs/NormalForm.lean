/-
Simplifying once is enough.

What `collapse` builds is the canonical form of some sum, and canonical form is a fixed point of
`reduce`: there is nothing left to merge, and sorting a second time moves nothing.  The second
half does not ask whether the numbers are defined.  Terms with undefined numbers may sort in
circles, but neighbours are in order after the first sort, and that is all the sort looks at.

An expression that does not collapse is kept, with its operands simplified.  Simplified operands
collapse into the same sums as before or fail as before (`collapse_simplify`), so no division
starts to come out even and no call starts to be constant, and the whole still does not collapse.
-/
import Mathlib
import PolyAlgebra.Proofs.CanonicalResults

namespace PolyAlgebra

variable {α : Type} [Number α]

namespace Expr

/-! ### Parts of an expression -/

mutual

/-- The expression itself and all expressions in it. -/
def parts : Expr α → List (Expr α)
  | .sum terms => [.sum terms]
  | .binary op left right => .binary op left right :: (parts left ++ parts right)
  | .call f arguments => .call f arguments :: partsAll arguments

/-- The parts of several expressions. -/
def partsAll : List (Expr α) → List (Expr α)
  | [] => []
  | e :: rest => parts e ++ partsAll rest

end

theorem partsAll_eq_flatMap (es : List (Expr α)) : partsAll es = es.flatMap parts := by
  induction es with
  | nil => rfl
  | cons e rest ih => simp [partsAll, ih]

theorem self_mem_parts (e : Expr α) : e ∈ e.parts := by
  cases e <;> simp [parts]

theorem forall_parts_call {P : Expr α → Prop} {f : Elementary} {arguments : List (Expr α)} :
    (∀ s ∈ (Expr.call f arguments).parts, P s) ↔
      P (.call f arguments) ∧ ∀ e ∈ arguments, ∀ s ∈ e.parts, P s := by
  rw [parts, List.forall_mem_cons, partsAll_eq_flatMap]
  simp only [List.mem_flatMap, forall_exists_index, and_imp]
  exact ⟨fun h => ⟨h.1, fun e he s hs => h.2 s e he hs⟩,
    fun h => ⟨h.1, fun s e he hs => h.2 e he s hs⟩⟩

end Expr

/-! ### Sums -/

namespace TermSum

/-- **Reducing twice is reducing once.** -/
theorem IsReduct.reduce_eq [OrderedNumber α] {terms : TermSum α} (h : IsReduct terms) :
    reduce terms = terms := by
  obtain ⟨raw, rfl⟩ := h
  rw [reduce, (reduce_canonical raw).orZero_merge]
  exact stableSort_eq_self Term.canonicalOrder_swap (reduce_isChain raw)

end TermSum

namespace Expr

/-! ### Expressions that do not collapse -/

theorem simplify_binary_of_error {op : Operator} {left right : Expr α} {obstacle : Obstacle α}
    (h : (Expr.binary op left right).collapse = .error obstacle) :
    (Expr.binary op left right).simplify = .binary op left.simplify right.simplify := by
  rw [simplify, h]

theorem simplify_call_of_error {f : Elementary} {arguments : List (Expr α)}
    {obstacle : Obstacle α} (h : (Expr.call f arguments).collapse = .error obstacle) :
    (Expr.call f arguments).simplify = .call f (arguments.map simplify) := by
  rw [simplify, h, simplifyAll_eq_map]

/-- Only the sums that the operands collapse into decide whether an operation collapses. -/
theorem collapse_binary_congr {op : Operator} {left right left' right' : Expr α}
    (hl : left'.collapse = left.collapse) (hr : right'.collapse = right.collapse) :
    (Expr.binary op left' right').collapse = (Expr.binary op left right).collapse := by
  rw [collapse, collapse, hl, hr]

theorem constants_map_congr {g : Expr α → Expr α} {arguments : List (Expr α)}
    (h : ∀ e ∈ arguments, (g e).collapse = e.collapse) :
    constants (arguments.map g) = constants arguments := by
  induction arguments with
  | nil => rfl
  | cons e rest ih =>
    obtain ⟨he, hrest⟩ := List.forall_mem_cons.mp h
    rw [List.map_cons, constants, constants, he, ih hrest]

/-- The same for the arguments of a call. -/
theorem collapse_call_congr {f : Elementary} {g : Expr α → Expr α} {arguments : List (Expr α)}
    (h : ∀ e ∈ arguments, (g e).collapse = e.collapse) :
    (Expr.call f (arguments.map g)).collapse = (Expr.call f arguments).collapse := by
  rw [collapse, collapse, constants_map_congr h]

/-! ### Simplifying twice -/

variable [OrderedNumber α]

/-- What an expression collapses into collapses into itself. -/
theorem collapse_simplify_of_ok {e : Expr α} {terms : TermSum α} (h : e.collapse = .ok terms) :
    e.simplify.collapse = e.collapse := by
  rw [simplify_of_collapse h, h, collapse, (collapse_isReduct h).reduce_eq]

/-- **Simplifying does not change what an expression collapses into**, or why it does not. -/
theorem collapse_simplify (e : Expr α) : e.simplify.collapse = e.collapse := by
  induction e using Expr.induct with
  | sum terms => exact collapse_simplify_of_ok rfl
  | binary op left right ihl ihr =>
    cases h : (Expr.binary op left right).collapse with
    | ok terms => rw [collapse_simplify_of_ok h, h]
    | error obstacle => rw [simplify_binary_of_error h, collapse_binary_congr ihl ihr, h]
  | call f arguments ih =>
    cases h : (Expr.call f arguments).collapse with
    | ok terms => rw [collapse_simplify_of_ok h, h]
    | error obstacle => rw [simplify_call_of_error h, collapse_call_congr ih, h]

/-- A sum that an expression collapses into is simplified. -/
theorem simplify_parts_of_ok {e : Expr α} {terms : TermSum α} (h : e.collapse = .ok terms) :
    ∀ s ∈ e.simplify.parts, s.simplify = s := by
  rw [simplify_of_collapse h, parts, List.forall_mem_singleton, simplify, ofTerms,
    (collapse_isReduct h).reduce_eq]

/-- **Nothing in a simplified expression can be simplified.** -/
theorem simplify_parts (e : Expr α) : ∀ s ∈ e.simplify.parts, s.simplify = s := by
  induction e using Expr.induct with
  | sum terms => exact simplify_parts_of_ok rfl
  | binary op left right ihl ihr =>
    cases h : (Expr.binary op left right).collapse with
    | ok terms => exact simplify_parts_of_ok h
    | error obstacle =>
      have hcollapse := collapse_simplify (.binary op left right)
      rw [simplify_binary_of_error h, h] at hcollapse
      rw [simplify_binary_of_error h, parts, List.forall_mem_cons, List.forall_mem_append]
      refine ⟨?_, ihl, ihr⟩
      rw [simplify_binary_of_error hcollapse, ihl _ (self_mem_parts _), ihr _ (self_mem_parts _)]
  | call f arguments ih =>
    cases h : (Expr.call f arguments).collapse with
    | ok terms => exact simplify_parts_of_ok h
    | error obstacle =>
      have harguments : ∀ e ∈ arguments.map simplify, ∀ s ∈ e.parts, s.simplify = s := by
        rw [List.forall_mem_map]
        exact ih
      have hcollapse := collapse_simplify (.call f arguments)
      rw [simplify_call_of_error h, h] at hcollapse
      rw [simplify_call_of_error h, forall_parts_call]
      refine ⟨?_, harguments⟩
      rw [simplify_call_of_error hcollapse]
      congr 1
      refine (List.map_congr_left fun e he => ?_).trans (List.map_id _)
      exact harguments e he e (self_mem_parts e)

/-- **One pass of simplifying reaches a normal form**, whatever the numbers do.  A second pass
gives the identical tree, no part of which can be simplified any further, and the tree collapses
into the sum that the expression collapses into, if there is one. -/
theorem simplify_normal (e : Expr α) :
    e.simplify.simplify = e.simplify ∧ (∀ s ∈ e.simplify.parts, s.simplify = s) ∧
      e.simplify.trySimplify = e.trySimplify := by
  have hparts := simplify_parts e
  refine ⟨hparts _ (self_mem_parts _), hparts, ?_⟩
  rw [trySimplify, trySimplify, collapse_simplify]

/-- Doubles, in a division that does not come out even, of a power of a raw sum by a call. -/
theorem simplify_normal_kept :
    let raw : Expr Float := .sum [Term.ofNumber 2, Term.ofName "x", Term.zero, Term.ofName "x"]
    let e : Expr Float := .binary .multiply (.binary .divide raw (.binary .multiply raw raw))
      (.binary .power raw (.call (.unary .sine) [.binary .subtract raw raw]))
    OrderedNumber Float ∧
      e.simplify.simplify = e.simplify ∧ (∀ s ∈ e.simplify.parts, s.simplify = s) ∧
        e.simplify.trySimplify = e.trySimplify := by
  intro raw e
  exact ⟨inferInstance, simplify_normal e⟩

end Expr

end PolyAlgebra
