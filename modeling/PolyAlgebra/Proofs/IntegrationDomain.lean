/-
What can be integrated.

Integration goes through sums and differences to their summands, and it has a rule for two kinds of
these: sums of terms, and products that collapse into one.  So an expression is integrable if all
its summands are (`isIntegrable_eq_all`), and if one is not, integration stops at the first such.

Whether a summand is integrable does not depend on the variable.  What does is the rule for a single
term, which the exponent -1 does not have.  `integrands` lists the terms that this rule is asked to
integrate, and the three ways in which integration can end are told apart by these terms and by
the summands (`IntegratesTo`).  Nothing is assumed of the numbers.
-/
import Mathlib
import PolyAlgebra.Calculus
import PolyAlgebra.Double.Arithmetic
import PolyAlgebra.Proofs.Collapsing

namespace PolyAlgebra

variable {α : Type} [Number α] {name : String}

/-- The rule for a term has this one exception. -/
theorem Term.integrate_eq_error_iff {t : Term α} {error : TermError α} :
    t.integrate name = .error error ↔
      (t.exponent name == -1) = true ∧ error = .needsLogarithm t name := by
  rw [integrate]
  split
  · rename_i h
    exact ⟨fun heq => ⟨h, (Except.error.inj heq).symm⟩, fun heq => by rw [heq.2]⟩
  · rename_i h
    constructor
    · intro heq
      cases heq
    · intro heq
      exact absurd heq.1 h

namespace Expr

/-! ### Summands -/

/-- Whether there is an antiderivative, the exponent -1 aside. -/
def isIntegrable : Expr α → Bool
  | .sum _ => true
  | .binary .add left right => isIntegrable left && isIntegrable right
  | .binary .subtract left right => isIntegrable left && isIntegrable right
  | .binary .multiply left right => (trySimplify (.binary .multiply left right)).isSome
  | .binary .divide _ _ => false
  | .binary .power _ _ => false
  | .call _ _ => false

/-- What is added and subtracted, from left to right. -/
def summands : Expr α → List (Expr α)
  | .binary .add left right => summands left ++ summands right
  | .binary .subtract left right => summands left ++ summands right
  | e => [e]

/-- The terms that are integrated one by one, up to the first summand that is not integrable. -/
def integrands : Expr α → List (Term α)
  | .sum terms => terms
  | .binary .add left right =>
    integrands left ++ if left.isIntegrable then integrands right else []
  | .binary .subtract left right =>
    integrands left ++ if left.isIntegrable then integrands right else []
  | .binary .multiply left right => (collapse (.binary .multiply left right)).toOption.getD []
  | .binary .divide _ _ => []
  | .binary .power _ _ => []
  | .call _ _ => []

/-- What stands at the root, if it is not a sum of terms. -/
def root? : Expr α → Option Head
  | .sum _ => none
  | .binary op _ _ => some (.operator op)
  | .call f _ => some (.function f)

section Additive

variable {op : Operator} {left right : Expr α} (hop : op = .add ∨ op = .subtract)

include hop

theorem isIntegrable_additive :
    (Expr.binary op left right).isIntegrable = (left.isIntegrable && right.isIntegrable) := by
  rcases hop with rfl | rfl <;> rw [isIntegrable]

theorem summands_additive :
    (Expr.binary op left right).summands = left.summands ++ right.summands := by
  rcases hop with rfl | rfl <;> rw [summands]

theorem integrands_additive :
    (Expr.binary op left right).integrands =
      left.integrands ++ if left.isIntegrable then right.integrands else [] := by
  rcases hop with rfl | rfl <;> rw [integrands]

theorem integrate_additive :
    (Expr.binary op left right).integrate name = (do
      let l ← left.integrate name
      let r ← right.integrate name
      .ok (simplify (.binary op l r))) := by
  rcases hop with rfl | rfl <;> rw [integrate]

/-- Antiderivatives that are sums make a sum. -/
theorem simplify_additive (l r : TermSum α) :
    ∃ terms, simplify (.binary op (.sum l) (.sum r)) = .sum terms := by
  rcases hop with rfl | rfl
  · exact ⟨_, simplify_of_collapse rfl⟩
  · exact ⟨_, simplify_of_collapse rfl⟩

end Additive

/-- **An expression is integrable if all its summands are.** -/
theorem isIntegrable_eq_all (e : Expr α) : e.isIntegrable = e.summands.all isIntegrable := by
  induction e using Expr.induct with
  | sum terms => exact (Bool.and_true _).symm
  | binary op left right ihl ihr =>
    cases op with
    | add =>
      rw [isIntegrable_additive (.inl rfl), summands_additive (.inl rfl), List.all_append, ihl, ihr]
    | subtract =>
      rw [isIntegrable_additive (.inr rfl), summands_additive (.inr rfl), List.all_append, ihl, ihr]
    | multiply => exact (Bool.and_true _).symm
    | divide => exact (Bool.and_true _).symm
    | power => exact (Bool.and_true _).symm
  | call f arguments _ => exact (Bool.and_true _).symm

theorem isIntegrable_eq_false {e s : Expr α} (hs : s.isIntegrable = false)
    (hmem : s ∈ e.summands) : e.isIntegrable = false := by
  rw [isIntegrable_eq_all]
  exact List.all_eq_false.mpr ⟨s, hmem, by simp [hs]⟩

/-! ### How integration ends -/

/-- How integrating an expression ends: with a sum of terms, with a refusal of the first summand
that is not integrable, or with a term that would need a logarithm. -/
inductive IntegratesTo (e : Expr α) (name : String) : Except (CalculusError α) (Expr α) → Prop
  | integral (terms : List (Term α)) (hintegrable : e.isIntegrable = true)
      (hterms : ∀ t ∈ e.integrands, (t.exponent name == -1) = false) :
      IntegratesTo e name (.ok (.sum terms))
  | refusal (before : List (Expr α)) (s : Expr α) (after : List (Expr α)) (root : Head)
      (hsummands : e.summands = before ++ s :: after)
      (hbefore : ∀ u ∈ before, u.isIntegrable = true) (hs : s.isIntegrable = false)
      (hroot : s.root? = some root)
      (hterms : ∀ t ∈ e.integrands, (t.exponent name == -1) = false) :
      IntegratesTo e name (.error (.notIntegrable root))
  | logarithm (t : Term α) (ht : t ∈ e.integrands) (hexponent : (t.exponent name == -1) = true) :
      IntegratesTo e name (.error (.term (.needsLogarithm t name)))

/-- Nothing is integrable in an expression whose only summand is not. -/
theorem IntegratesTo.refused {e : Expr α} {root : Head} (hsummands : e.summands = [e])
    (h : e.isIntegrable = false) (hroot : e.root? = some root) (hterms : e.integrands = []) :
    IntegratesTo e name (.error (.notIntegrable root)) :=
  .refusal [] e [] root hsummands (List.forall_mem_nil _) h hroot (by simp [hterms])

/-- Sums of terms are integrated term by term. -/
theorem integrateTerms_integratesTo {e : Expr α} (h : e.isIntegrable = true) :
    IntegratesTo e name (integrateTerms e.integrands name) := by
  rw [integrateTerms]
  cases hmap : e.integrands.mapM (fun t => t.integrate name) with
  | ok integrals =>
    refine .integral _ h fun t ht => ?_
    obtain ⟨u, hu⟩ := exists_of_mapM_eq_ok hmap t ht
    rw [← Bool.not_eq_true]
    intro hexponent
    cases hu.symm.trans (Term.integrate_eq_error_iff.mpr ⟨hexponent, rfl⟩)
  | error error =>
    obtain ⟨t, ht, herror⟩ := exists_of_mapM_eq_error hmap
    obtain ⟨hexponent, rfl⟩ := Term.integrate_eq_error_iff.mp herror
    exact .logarithm t ht hexponent

/-- The operands of a sum or difference are integrated one after the other. -/
theorem IntegratesTo.additive {op : Operator} (hop : op = .add ∨ op = .subtract)
    {left right : Expr α} {outcome outcome' : Except (CalculusError α) (Expr α)}
    (hl : IntegratesTo left name outcome) (hr : IntegratesTo right name outcome') :
    IntegratesTo (.binary op left right) name (do
      let l ← outcome
      let r ← outcome'
      .ok (simplify (.binary op l r))) := by
  have hsplit : (Expr.binary op left right).integrands = _ := integrands_additive hop
  cases hl with
  | logarithm t ht hexponent =>
    exact .logarithm t (by rw [hsplit]; exact List.mem_append_left _ ht) hexponent
  | refusal before s after root hsummands hbefore hs hroot hterms =>
    have hleft : left.isIntegrable = false := isIntegrable_eq_false hs (by simp [hsummands])
    rw [hleft, if_neg Bool.false_ne_true, List.append_nil] at hsplit
    refine .refusal before s (after ++ right.summands) root ?_ hbefore hs hroot (hsplit ▸ hterms)
    rw [summands_additive hop, hsummands, List.append_assoc, List.cons_append]
  | integral l hleft hterms =>
    rw [hleft, if_pos rfl] at hsplit
    cases hr with
    | logarithm t ht hexponent =>
      exact .logarithm t (by rw [hsplit]; exact List.mem_append_right _ ht) hexponent
    | refusal before s after root hsummands hbefore hs hroot hterms' =>
      have hall : ∀ u ∈ left.summands, u.isIntegrable = true := by
        rwa [← List.all_eq_true, ← isIntegrable_eq_all]
      refine .refusal (left.summands ++ before) s after root ?_ ?_ hs hroot ?_
      · rw [summands_additive hop, hsummands, List.append_assoc]
      · exact List.forall_mem_append.mpr ⟨hall, hbefore⟩
      · rw [hsplit]
        exact List.forall_mem_append.mpr ⟨hterms, hterms'⟩
    | integral r hright hterms' =>
      obtain ⟨terms, hsum⟩ := simplify_additive hop l r
      have hintegral : IntegratesTo (.binary op left right) name (.ok (.sum terms)) := by
        refine .integral terms ?_ ?_
        · rw [isIntegrable_additive hop, hleft, hright]
          rfl
        · rw [hsplit]
          exact List.forall_mem_append.mpr ⟨hterms, hterms'⟩
      rwa [← hsum] at hintegral

/-- **Integration ends in one of three ways.** -/
theorem integrate_integratesTo (e : Expr α) (name : String) :
    IntegratesTo e name (e.integrate name) := by
  induction e using Expr.induct with
  | sum terms => exact integrateTerms_integratesTo rfl
  | binary op left right ihl ihr =>
    cases op with
    | add =>
      rw [integrate_additive (.inl rfl)]
      exact ihl.additive (.inl rfl) ihr
    | subtract =>
      rw [integrate_additive (.inr rfl)]
      exact ihl.additive (.inr rfl) ihr
    | multiply =>
      rw [integrate]
      cases h : (Expr.binary .multiply left right).collapse with
      | ok terms =>
        have hintegrands : (Expr.binary .multiply left right).integrands = terms := by
          rw [integrands, h]
          rfl
        rw [← hintegrands]
        refine integrateTerms_integratesTo ?_
        rw [isIntegrable]
        exact isSome_trySimplify_iff.mpr ⟨terms, h⟩
      | error obstacle =>
        refine .refused rfl ?_ rfl ?_
        · rw [isIntegrable, trySimplify_of_error h]
          rfl
        · rw [integrands, h]
          rfl
    | divide => exact .refused rfl rfl rfl rfl
    | power => exact .refused rfl rfl rfl rfl
  | call f arguments _ => exact .refused rfl rfl rfl rfl

end Expr

end PolyAlgebra
