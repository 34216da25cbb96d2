/-
Operations keep expressions well formed.

Nothing in the library ever changes the number of arguments of a call.  An expression that
collapses becomes a sum, which has no calls; otherwise its operands are changed one by one.  So
what simplifying, substituting, composing and differentiating return is well formed if what they
were given is.  The components of a gradient are derivatives and those of a root are numbers.

Nothing is assumed of the numbers.
-/
import Mathlib
import PolyAlgebra.Calculus
import PolyAlgebra.Proofs.Collapsing
import PolyAlgebra.Proofs.Composition
import PolyAlgebra.Proofs.NormalForm
import PolyAlgebra.Proofs.Preservation
import PolyAlgebra.Solver

namespace PolyAlgebra

variable {α : Type} [Number α]

namespace Expr

theorem wellFormed_sum (terms : List (Term α)) : (Expr.sum terms).WellFormed := trivial

theorem wellFormed_binary_iff {op : Operator} {left right : Expr α} :
    (Expr.binary op left right).WellFormed ↔ left.WellFormed ∧ right.WellFormed := by
  rw [WellFormed]

theorem wellFormed_call_iff {f : Elementary} {arguments : List (Expr α)} :
    (Expr.call f arguments).WellFormed ↔
      arguments.length = f.arity ∧ ∀ e ∈ arguments, e.WellFormed := by
  rw [WellFormed, allWellFormed_iff]

/-- Changing the arguments of a call one by one. -/
theorem wellFormed_call_map {f : Elementary} {arguments : List (Expr α)} {g : Expr α → Expr α}
    (h : (Expr.call f arguments).WellFormed)
    (hg : ∀ e ∈ arguments, e.WellFormed → (g e).WellFormed) :
    (Expr.call f (arguments.map g)).WellFormed := by
  obtain ⟨hlength, hall⟩ := wellFormed_call_iff.mp h
  rw [wellFormed_call_iff, List.length_map, List.forall_mem_map]
  exact ⟨hlength, fun e he => hg e he (hall e he)⟩

/-! ### Simplifying -/

theorem wellFormed_of_trySimplify {e r : Expr α} (h : e.trySimplify = some r) : r.WellFormed := by
  obtain ⟨terms, -, rfl⟩ := trySimplify_eq_some_iff.mp h
  exact wellFormed_sum terms

/-- What is well formed passes that on. -/
theorem establishes_wellFormed : Establishes (α := α) (·.WellFormed) (·.WellFormed) where
  weaken h := h
  operands := wellFormed_binary_iff
  binary hl hr := wellFormed_binary_iff.mpr ⟨hl, hr⟩
  call_map := wellFormed_call_map
  collapse _ _ := wellFormed_sum _
  zero := wellFormed_sum _

theorem simplify_wellFormed {e : Expr α} (h : e.WellFormed) : e.simplify.WellFormed :=
  establishes_wellFormed.simplify h

/-! ### Replacing variables -/

theorem substitute_wellFormed {e : Expr α} (h : e.WellFormed) (b : Bindings α) :
    (e.substitute b).WellFormed := by
  induction e using Expr.induct with
  | sum terms => exact wellFormed_sum _
  | binary op left right ihl ihr =>
    obtain ⟨hl, hr⟩ := wellFormed_binary_iff.mp h
    exact wellFormed_binary_iff.mpr ⟨ihl hl, ihr hr⟩
  | call f arguments ih =>
    rw [substitute, substituteAll_eq_map]
    exact wellFormed_call_map h ih

section Composing

variable {g : Expr α} (hg : g.WellFormed)

include hg

theorem copies_wellFormed (count : Nat) : (copies g count).WellFormed := by
  induction count using copies.induct with
  | case1 => exact hg
  | case2 => exact hg
  | case3 count ih => exact wellFormed_binary_iff.mpr ⟨ih, hg⟩

theorem raise_wellFormed (exponent : α) : (raise g exponent).WellFormed := by
  rw [raise]
  split
  · exact wellFormed_binary_iff.mpr ⟨hg, wellFormed_sum _⟩
  · split
    · exact wellFormed_binary_iff.mpr ⟨wellFormed_sum _, copies_wellFormed hg _⟩
    · exact copies_wellFormed hg _

theorem composeSum_wellFormed (x : String) (terms : TermSum α) :
    (composeSum x g terms).WellFormed :=
  -- there is nothing to add up, so any worth will do
  composeSum_additive (M := fun e (_ : ℕ) => e.WellFormed)
    (fun _ _ _ _ he he' => wellFormed_binary_iff.mpr ⟨he, he'⟩) (fun _ => 0) (wellFormed_sum _)
    fun _ _ _ => wellFormed_binary_iff.mpr ⟨wellFormed_sum _, raise_wellFormed hg _⟩

theorem compose_wellFormed {e : Expr α} (h : e.WellFormed) (x : String) :
    (e.compose x g).WellFormed := by
  induction e using Expr.induct with
  | sum terms => exact composeSum_wellFormed hg x terms
  | binary op left right ihl ihr =>
    obtain ⟨hl, hr⟩ := wellFormed_binary_iff.mp h
    exact wellFormed_binary_iff.mpr ⟨ihl hl, ihr hr⟩
  | call f arguments ih =>
    rw [compose, composeAll_eq_map]
    exact wellFormed_call_map h ih

end Composing

/-! ### Derivatives -/

/-- Only well formed expressions have a derivative, since calls have none. -/
theorem wellFormed_of_differentiate {e d : Expr α} {name : String}
    (h : e.differentiate name = .ok d) : e.WellFormed := by
  induction e using Expr.induct generalizing d with
  | sum terms => exact wellFormed_sum terms
  | binary op left right ihl ihr =>
    rw [differentiate] at h
    split at h
    · cases h
    obtain ⟨dleft, hdl, h⟩ := bind_eq_ok_iff.mp h
    obtain ⟨dright, hdr, -⟩ := bind_eq_ok_iff.mp h
    exact wellFormed_binary_iff.mpr ⟨ihl hdl, ihr hdr⟩
  | call f arguments _ => cases h

theorem differentiate_wellFormed {e d : Expr α} (h : e.WellFormed) {name : String}
    (hd : e.differentiate name = .ok d) : d.WellFormed :=
  establishes_wellFormed.differentiate (fun _ _ => wellFormed_sum _) h hd

/-- The components of a gradient are derivatives. -/
theorem differentiate_of_gradient {e d : Expr α} {v : Vector α} (hv : e.gradient = .ok v)
    {name : String} (hd : v.get? name = some d) : e.differentiate name = .ok d := by
  obtain ⟨components, hcomponents, rfl⟩ := map_eq_ok_iff.mp hv
  obtain ⟨_, -, hx⟩ := exists_of_mem_mapM hcomponents (NameMap.mem_of_get?_ofList hd)
  obtain ⟨_, hderivative, ⟨⟩⟩ := map_eq_ok_iff.mp hx
  exact hderivative

theorem gradient_wellFormed {e : Expr α} (h : e.WellFormed) {v : Vector α}
    (hv : e.gradient = .ok v) {name : String} {d : Expr α} (hd : v.get? name = some d) :
    d.WellFormed :=
  differentiate_wellFormed h (differentiate_of_gradient hv hd)

end Expr

/-! ### Roots -/

theorem Vector.ofNumbers_wellFormed {point : NameMap α} {name : String} {e : Expr α}
    (h : (ofNumbers point).get? name = some e) : e.WellFormed := by
  rw [get?, ofNumbers, NameMap.get?_map, Option.map_eq_some_iff] at h
  obtain ⟨x, -, rfl⟩ := h
  exact Expr.wellFormed_sum _

namespace Solver

theorem mem_formulaRoots? {name : String} {terms : List (Term α)} {roots : List (Root α)}
    (h : formulaRoots? name terms = some roots) {root : Root α} (hroot : root ∈ roots) :
    ∃ x residual, root = rootAt name x residual := by
  unfold formulaRoots? at h
  dsimp only at h
  split at h
  · obtain rfl := Option.some.inj h
    unfold linearRoots at hroot
    split at hroot
    · simp at hroot
    · exact ⟨_, _, List.mem_singleton.mp hroot⟩
  · split at h
    · obtain rfl := Option.some.inj h
      obtain ⟨x, -, rfl⟩ := List.mem_map.mp hroot
      exact ⟨x, _, rfl⟩
    · cases h

/-- Whichever way a root is found, its coordinates are numbers. -/
theorem mem_solve {solver : Solver α} {e : Expr α} {roots : List (Root α)}
    (h : solver.solve e = .ok roots) {root : Root α} (hroot : root ∈ roots) :
    ∃ point, root.point = Vector.ofNumbers point := by
  rw [solve] at h
  split at h
  · rename_i hformula
    obtain rfl := Except.ok.inj h
    unfold closedForm? at hformula
    split at hformula
    · obtain ⟨x, residual, rfl⟩ := mem_formulaRoots? hformula hroot
      exact ⟨_, rfl⟩
    · cases hformula
  · obtain ⟨found, hfound, rfl⟩ := map_eq_ok_iff.mp h
    obtain ⟨start, -, rfl⟩ := map_eq_ok_iff.mp hfound
    obtain rfl := List.mem_singleton.mp hroot
    exact ⟨_, rfl⟩

theorem solve_wellFormed {solver : Solver α} {e : Expr α} {roots : List (Root α)}
    (h : solver.solve e = .ok roots) {root : Root α} (hroot : root ∈ roots) {name : String}
    {r : Expr α} (hr : root.point.get? name = some r) : r.WellFormed := by
  obtain ⟨point, hpoint⟩ := mem_solve h hroot
  rw [hpoint] at hr
  exact Vector.ofNumbers_wellFormed hr

end Solver

end PolyAlgebra
