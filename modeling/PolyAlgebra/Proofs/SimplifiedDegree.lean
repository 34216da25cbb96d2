/-
Simplifying keeps the degree.

The degree of an operation looks at what the operation collapses into, and a simplified operation
collapses into the same sum or not at all (`collapse_simplify`).  So node by node the same choice is
made before and after, and where nothing collapses the operands decide.

Two kinds of expressions take another way to their degree.  A call never looks at what it collapses
into: it takes the largest degree of its arguments, and zero.  But a call collapses only if all its
arguments are constant, and then they have degree zero like the number that the call becomes.  And a
sum of terms is as it was given, so it has to be in canonical form already.
-/
import Mathlib
import PolyAlgebra.Proofs.Degree
import PolyAlgebra.Proofs.NormalForm

namespace PolyAlgebra

variable {α : Type} [Number α]

/-! ### Constants -/

namespace Term

theorem degree_of_isConstant {t : Term α} (h : t.isConstant = true) : t.degree = 0 := by
  rw [degree, if_pos h]

theorem isConstant_normalise (c : α) {powers : NameMap α} (h : powers.isEmpty = true) :
    (normalise c powers).isConstant = true := by
  rw [NameMap.isEmpty_iff] at h
  rw [normalise, h]
  split <;> rfl

end Term

theorem TermSum.isConstant_ofNumber (x : α) : isConstant (ofNumber x) = true :=
  List.all_eq_true.mpr <|
    reduce_forall (P := fun t => t.isConstant = true) rfl
      (fun _ c ht => Term.isConstant_normalise c ht)
      (List.forall_mem_singleton.mpr (Term.isConstant_normalise x rfl))

/-- If a list of expressions has values, each of them collapses into a constant. -/
theorem Expr.exists_constant_of_mem {arguments : List (Expr α)} {numbers : List α}
    (h : constants arguments = .ok numbers) {e : Expr α} (he : e ∈ arguments) :
    ∃ terms, e.collapse = .ok terms ∧ TermSum.isConstant terms = true := by
  induction arguments generalizing numbers with
  | nil => cases he
  | cons first rest ih =>
    obtain ⟨terms, others, hterms, hconstant, hothers, -⟩ := constants_cons_eq_ok_iff.mp h
    rcases List.mem_cons.mp he with rfl | he
    · exact ⟨terms, hterms, hconstant⟩
    · exact ih hothers he

variable [OrderedNumber α]

/-- The largest of zeros is zero. -/
theorem Number.largest_of_forall_zero {xs : List α} (hne : xs ≠ []) (h : ∀ x ∈ xs, x = 0) :
    largest xs = 0 := by
  have hfold : ∀ ys : List α, (∀ y ∈ ys, y = 0) → ys.foldl larger 0 = 0 := by
    intro ys
    induction ys with
    | nil => exact fun _ => rfl
    | cons y rest ih =>
      intro hys
      obtain ⟨rfl, hrest⟩ := List.forall_mem_cons.mp hys
      rw [List.foldl_cons, larger, ite_self]
      exact ih hrest
  obtain ⟨x, rest, rfl⟩ := List.exists_cons_of_ne_nil hne
  obtain ⟨rfl, hrest⟩ := List.forall_mem_cons.mp h
  rw [largest_of_defined fun y hy => by rw [h y hy, OrderedNumber.zero_defined]]
  exact hfold rest hrest

namespace TermSum

/-- A sum that mentions no variable has degree zero. -/
theorem degree_of_isConstant {terms : TermSum α} (h : isConstant terms = true) :
    degree terms = 0 := by
  rw [degree]
  split
  · rfl
  · rename_i hne
    refine Number.largest_of_forall_zero (by simpa using hne) ?_
    exact List.forall_mem_map.mpr fun t ht =>
      Term.degree_of_isConstant (List.all_eq_true.mp h t ht)

/-! ### Canonical sums -/

/-- **A canonical sum is its own canonical form**, if its numbers are defined. -/
theorem CanonicalForm.reduce_eq {terms : TermSum α} (h : CanonicalForm terms)
    (hdefined : ∀ t ∈ terms, t.Defined) : reduce terms = terms := by
  rw [reduce, h.orZero_merge]
  exact stableSort_eq_self Term.canonicalOrder_swap (h.inOrder hdefined).isChain

end TermSum

/-! ### Expressions -/

namespace Expr

/-- A call that collapses has degree zero already, if its arguments keep their degrees. -/
theorem degree_call_of_constants {f : Elementary} {arguments : List (Expr α)} {numbers : List α}
    (h : constants arguments = .ok numbers)
    (hdegrees : ∀ e ∈ arguments, e.simplify.degree = e.degree) :
    (Expr.call f arguments).degree = 0 := by
  rw [degree, degrees_eq_map]
  refine Number.largest_of_forall_zero (List.cons_ne_nil _ _) ?_
  refine List.forall_mem_cons.mpr ⟨rfl, List.forall_mem_map.mpr fun e he => ?_⟩
  obtain ⟨terms, hterms, hconstant⟩ := exists_constant_of_mem h he
  rw [← hdegrees e he, simplify_of_collapse hterms, degree,
    TermSum.degree_of_isConstant hconstant]

/-- **Simplifying does not change the degree** of an expression whose sums are canonical, if no
number in them is undefined. -/
theorem degree_simplify {e : Expr α} (hcanonical : e.HasCanonicalForm)
    (hdefined : ∀ t ∈ e.leafTerms, t.Defined) : e.simplify.degree = e.degree := by
  induction e using Expr.induct with
  | sum terms =>
    have hreduce := (hasCanonicalForm_sum_iff.mp hcanonical).reduce_eq hdefined
    rw [simplify, ofTerms, hreduce]
  | binary op left right ihl ihr =>
    cases h : (Expr.binary op left right).collapse with
    | ok terms => rw [simplify_of_collapse h, degree, degree, h]
    | error obstacle =>
      obtain ⟨hcl, hcr⟩ := hasCanonicalForm_binary_iff.mp hcanonical
      obtain ⟨hdl, hdr⟩ := forall_leafTerms_binary.mp hdefined
      have hcollapse := collapse_simplify (.binary op left right)
      rw [simplify_binary_of_error h, h] at hcollapse
      rw [simplify_binary_of_error h, degree, degree, hcollapse, h]
      dsimp only
      rw [ihl hcl hdl, ihr hcr hdr]
  | call f arguments ih =>
    have hdegrees : ∀ e ∈ arguments, e.simplify.degree = e.degree := fun e he =>
      ih e he (hasCanonicalForm_call_iff.mp hcanonical e he)
        (forall_leafTerms_call.mp hdefined e he)
    cases h : (Expr.call f arguments).collapse with
    | ok terms =>
      obtain ⟨numbers, x, hnumbers, -, rfl⟩ := collapse_call_eq_ok_iff.mp h
      rw [simplify_of_collapse h, degree_call_of_constants hnumbers hdegrees, degree,
        TermSum.degree_of_isConstant (TermSum.isConstant_ofNumber x)]
    | error obstacle =>
      rw [simplify_call_of_error h, degree, degree, degrees_eq_map, degrees_eq_map, List.map_map]
      congr 2
      exact List.map_congr_left hdegrees

/-- Rational numbers, in a power of a call that collapses by a product that does. -/
theorem degree_simplify_power :
    let x : Expr ℚ := ofName "x"
    let reciprocal : Expr ℚ := ofTerm (Term.ofPowers 1 [("x", -1)])
    let e : Expr ℚ := .binary .power (.call (.unary .sine) [.binary .subtract x x])
      (.binary .multiply reciprocal reciprocal)
    (OrderedNumber ℚ ∧ e.HasCanonicalForm ∧ ∀ t ∈ e.leafTerms, t.Defined) ∧
      e.simplify.degree = e.degree := by
  intro x reciprocal e
  have hterm : ∀ (c : ℚ) pairs, (ofTerm (Term.ofPowers c pairs)).HasCanonicalForm := fun c pairs =>
    hasCanonicalForm_sum_iff.mpr (TermSum.canonicalForm_reduce _)
  have hcall : (Expr.call (.unary .sine) [.binary .subtract x x]).HasCanonicalForm := by
    rw [hasCanonicalForm_call_iff, List.forall_mem_singleton, hasCanonicalForm_binary_iff]
    exact ⟨hterm 1 _, hterm 1 _⟩
  have hcanonical : e.HasCanonicalForm := by
    rw [hasCanonicalForm_binary_iff, hasCanonicalForm_binary_iff]
    exact ⟨hcall, hterm 1 _, hterm 1 _⟩
  have hdefined : ∀ t ∈ e.leafTerms, t.Defined := fun t _ =>
    ⟨Exact.isUndefined_eq_false _, fun _ _ _ => Exact.isUndefined_eq_false _⟩
  exact ⟨⟨inferInstance, hcanonical, hdefined⟩, degree_simplify hcanonical hdefined⟩

end Expr

end PolyAlgebra
