/-
What has a derivative.

Powers and calls have no rule, and everything else has one.  Both operands are differentiated
before their derivatives meet, and no rule fails once it has them, so neither what simplifies away
nor a quotient with a zero numerator can hide a part without a rule.  The parts are met from the
outside in and from left to right, and the first without a rule is the one that the refusal names,
whichever the variable is (`differentiate_cases`).

A gradient asks for one derivative for each variable, and all of these fail or none does.  So it
fails as they do, unless there is no variable to ask for.
-/
import Mathlib
import PolyAlgebra.Double.Arithmetic
import PolyAlgebra.Proofs.CheckedRuns
import PolyAlgebra.Proofs.NormalForm

namespace PolyAlgebra.Expr

variable {α : Type} [Number α]

/-! ### Parts without a rule -/

/-- What stands at the root, if derivatives have no rule for it. -/
def missingRule? : Expr α → Option Head
  | .sum _ => none
  | .binary op _ _ => if op = .power then some (.operator op) else none
  | .call f _ => some (.function f)

/-- The first part without a rule, from the outside in and from left to right. -/
def obstruction? (e : Expr α) : Option Head := e.parts.findSome? missingRule?

theorem obstruction?_eq_none_iff {e : Expr α} :
    e.obstruction? = none ↔ ∀ s ∈ e.parts, s.missingRule? = none :=
  List.findSome?_eq_none_iff

@[simp] theorem obstruction?_sum (terms : List (Term α)) : (Expr.sum terms).obstruction? = none :=
  rfl

@[simp] theorem obstruction?_call (f : Elementary) (arguments : List (Expr α)) :
    (Expr.call f arguments).obstruction? = some (.function f) := rfl

@[simp] theorem obstruction?_power (left right : Expr α) :
    (Expr.binary .power left right).obstruction? = some (.operator .power) := rfl

/-- Under an operator with a rule the left operand comes first. -/
theorem obstruction?_binary {op : Operator} (hop : op ≠ .power) (left right : Expr α) :
    (Expr.binary op left right).obstruction? = left.obstruction?.or right.obstruction? := by
  rw [obstruction?, parts, List.findSome?_cons, missingRule?, if_neg hop, List.findSome?_append]
  rfl

/-! ### Derivatives -/

/-- A rule that has both derivatives does not fail. -/
theorem combineDerivatives_eq_ok {op : Operator} (hop : op ≠ .power)
    (left right dleft dright : Expr α) :
    ∃ d, combineDerivatives op left right dleft dright = .ok d := by
  cases op with
  | power => exact absurd rfl hop
  | add | subtract | multiply | divide => exact ⟨_, rfl⟩

/-- **There is a derivative, or the first part without a rule is in the way.** -/
theorem differentiate_cases (e : Expr α) (name : String) :
    (e.obstruction? = none ∧ ∃ d, e.differentiate name = .ok d) ∨
    ∃ head, e.obstruction? = some head ∧
      e.differentiate name = .error (.notDifferentiable head) := by
  induction e using Expr.induct with
  | sum terms => exact .inl ⟨obstruction?_sum terms, _, rfl⟩
  | call f arguments _ => exact .inr ⟨_, obstruction?_call f arguments, rfl⟩
  | binary op left right ihl ihr =>
    by_cases hop : op = .power
    · subst hop
      exact .inr ⟨_, obstruction?_power left right, rfl⟩
    rw [obstruction?_binary hop, differentiate, if_neg hop]
    rcases ihl with ⟨hleft, dleft, hdl⟩ | ⟨head, hleft, herror⟩
    · rw [hleft, hdl, Option.none_or]
      rcases ihr with ⟨hright, dright, hdr⟩ | ⟨head, hright, herror⟩
      · rw [hdr]
        exact .inl ⟨hright, combineDerivatives_eq_ok hop left right dleft dright⟩
      · rw [herror]
        exact .inr ⟨head, hright, rfl⟩
    · rw [hleft, herror]
      exact .inr ⟨head, rfl, rfl⟩

theorem differentiate_eq_ok_iff {e : Expr α} {name : String} :
    (∃ d, e.differentiate name = .ok d) ↔ e.obstruction? = none := by
  rcases e.differentiate_cases name with ⟨hnone, hok⟩ | ⟨head, hsome, herror⟩
  · exact iff_of_true hok hnone
  · simp [hsome, herror]

theorem differentiate_eq_error_iff {e : Expr α} {name : String} {error : CalculusError α} :
    e.differentiate name = .error error ↔
      ∃ head, e.obstruction? = some head ∧ error = .notDifferentiable head := by
  rcases e.differentiate_cases name with ⟨hnone, d, hok⟩ | ⟨head, hsome, herror⟩
  · simp [hnone, hok]
  · simp [hsome, herror, eq_comm]

/-! ### Gradients -/

/-- The components of a gradient are the derivatives, in the order of the variables. -/
theorem gradient_entries {e : Expr α} {v : Vector α} (h : e.gradient = .ok v) :
    List.Forall₂ (fun name c => name = c.1 ∧ e.differentiate name = .ok c.2)
      e.variableNames v.components.entries := by
  obtain ⟨components, hcomponents, rfl⟩ := map_eq_ok_iff.mp h
  have hsteps : List.Forall₂ (fun name c => id name = c.1 ∧ e.differentiate name = .ok c.2)
      e.variableNames components := by
    refine (mapM_eq_ok_iff.mp hcomponents).imp fun name c hc => ?_
    obtain ⟨d, hd, rfl⟩ := map_eq_ok_iff.mp hc
    exact ⟨rfl, hd⟩
  have hrising : (e.variableNames.map id).Pairwise (· < ·) := by
    rw [List.map_id]
    exact e.variableNames_rising
  rw [NameMap.entries_ofList (R := fun name d => e.differentiate name = .ok d) hrising hsteps]
  exact hsteps

theorem gradient_names {e : Expr α} {v : Vector α} (h : e.gradient = .ok v) :
    v.components.names = e.variableNames := by
  rw [NameMap.names, ← List.forall₂_eq_eq_eq, List.forall₂_map_left_iff]
  exact (gradient_entries h).flip.imp fun _ _ hc => hc.1.symm

theorem gradient_eq_error_iff {e : Expr α} {error : CalculusError α} :
    e.gradient = .error error ↔ e.variableNames ≠ [] ∧
      ∃ head, e.obstruction? = some head ∧ error = .notDifferentiable head := by
  rw [gradient, map_eq_error_iff]
  constructor
  · intro h
    obtain ⟨name, hname, hfails⟩ := exists_of_mapM_eq_error h
    exact ⟨List.ne_nil_of_mem hname, differentiate_eq_error_iff.mp (map_eq_error_iff.mp hfails)⟩
  · rintro ⟨hnames, hobstruction⟩
    obtain ⟨name, rest, hcons⟩ := List.exists_cons_of_ne_nil hnames
    -- the first variable already meets the obstruction
    rw [hcons, List.mapM_cons, differentiate_eq_error_iff.mpr hobstruction]
    rfl

theorem gradient_eq_ok_iff {e : Expr α} :
    (∃ v, e.gradient = .ok v) ↔ e.variableNames = [] ∨ e.obstruction? = none := by
  constructor
  · intro h
    obtain ⟨v, hv⟩ := h
    by_contra hneither
    obtain ⟨hnames, hobstruction⟩ := not_or.mp hneither
    obtain ⟨head, hhead⟩ := Option.ne_none_iff_exists'.mp hobstruction
    cases hv.symm.trans (gradient_eq_error_iff.mpr ⟨hnames, head, hhead, rfl⟩)
  · intro h
    cases hgradient : e.gradient with
    | ok v => exact ⟨v, rfl⟩
    | error error =>
      obtain ⟨hnames, head, hhead, -⟩ := gradient_eq_error_iff.mp hgradient
      rcases h with h | h
      · exact absurd h hnames
      · cases hhead.symm.trans h

/-! ### What derivatives and gradients are defined on -/

end PolyAlgebra.Expr
