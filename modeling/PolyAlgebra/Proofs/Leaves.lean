/-
The terms at the leaves of an expression.

What is assumed of an expression is a matter of the terms at its leaves: which variables occur,
with which exponents, and which numbers are defined.  `leafTerms` lists them, and a variable
belongs to an expression exactly if one of them mentions it.  Where the terms of one leaf have to
be seen together, `leafSums` lists the leaves.
-/
import Mathlib
import PolyAlgebra.Expr.Basic
import PolyAlgebra.Proofs.NameMap

namespace PolyAlgebra.Expr

variable {α : Type} [Number α]

mutual

/-- The terms at the leaves of an expression, from left to right. -/
def leafTerms : Expr α → List (Term α)
  | .sum terms => terms
  | .binary _ left right => leafTerms left ++ leafTerms right
  | .call _ arguments => leafTermsAll arguments

/-- The terms at the leaves of several expressions. -/
def leafTermsAll : List (Expr α) → List (Term α)
  | [] => []
  | e :: rest => leafTerms e ++ leafTermsAll rest

end

theorem leafTermsAll_eq_flatMap (es : List (Expr α)) :
    leafTermsAll es = es.flatMap leafTerms := by
  induction es with
  | nil => rfl
  | cons e rest ih => simp [leafTermsAll, ih]

/-- What holds of the terms of an operation holds of those of its operands. -/
theorem forall_leafTerms_binary {P : Term α → Prop} {op : Operator} {left right : Expr α} :
    (∀ t ∈ (Expr.binary op left right).leafTerms, P t) ↔
      (∀ t ∈ left.leafTerms, P t) ∧ ∀ t ∈ right.leafTerms, P t := by
  rw [leafTerms, List.forall_mem_append]

/-- What holds of the terms of a call holds of those of its arguments. -/
theorem forall_leafTerms_call {P : Term α → Prop} {f : Elementary} {arguments : List (Expr α)} :
    (∀ t ∈ (Expr.call f arguments).leafTerms, P t) ↔
      ∀ e ∈ arguments, ∀ t ∈ e.leafTerms, P t := by
  rw [leafTerms, leafTermsAll_eq_flatMap]
  simp only [List.mem_flatMap, forall_exists_index, and_imp]
  exact ⟨fun h e he t ht => h t e he ht, fun h t e he ht => h e he t ht⟩

theorem mentions_eq_flatMap (e : Expr α) :
    e.mentions = e.leafTerms.flatMap (fun t => t.powers.names) := by
  induction e using Expr.induct with
  | sum terms => rw [mentions, leafTerms]
  | binary op left right hleft hright =>
    rw [mentions, leafTerms, hleft, hright, List.flatMap_append]
  | call f arguments ih =>
    rw [mentions, leafTerms, mentionsAll_eq_flatMap, leafTermsAll_eq_flatMap, List.flatMap_assoc]
    exact List.flatMap_congr ih

/-- The variables of an expression are those that its terms mention. -/
theorem mem_variableNames_iff (e : Expr α) (name : String) :
    name ∈ e.variableNames ↔ ∃ t ∈ e.leafTerms, ∃ exponent, t.powers.get? name = some exponent := by
  have hpair : (∃ value : Unit, (name, value) ∈ e.mentions.map (fun n => (n, ()))) ↔
      name ∈ e.mentions := by simp
  rw [variableNames, NameMap.mem_names_ofList, hpair, mentions_eq_flatMap, List.mem_flatMap]
  simp only [NameMap.mem_names_iff]

theorem variableNames_rising (e : Expr α) : e.variableNames.Pairwise (· < ·) :=
  NameMap.names_rising _

/-! ### Leaves -/

mutual

/-- The sums at the leaves of an expression, from left to right. -/
def leafSums : Expr α → List (List (Term α))
  | .sum terms => [terms]
  | .binary _ left right => leafSums left ++ leafSums right
  | .call _ arguments => leafSumsAll arguments

/-- The sums at the leaves of several expressions. -/
def leafSumsAll : List (Expr α) → List (List (Term α))
  | [] => []
  | e :: rest => leafSums e ++ leafSumsAll rest

end

theorem leafSumsAll_eq_flatMap (es : List (Expr α)) :
    leafSumsAll es = es.flatMap leafSums := by
  induction es with
  | nil => rfl
  | cons e rest ih => simp [leafSumsAll, ih]

end PolyAlgebra.Expr
