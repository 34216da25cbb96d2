/-
Degrees, and the term that a reduced sum starts with.

In exact arithmetic every number is defined, so the largest of some numbers is their maximum.
The degree of a term is then the largest exponent of its monomial, and the degree of a reduced sum
is that of its first term.

What later proofs need of the canonical order is only this (`Reduced.starts`): a reduced sum
that is not zero starts with a term of its polynomial whose degree no other term exceeds.
-/
import Mathlib
import PolyAlgebra.Proofs.Coefficients
import PolyAlgebra.Proofs.TermOrder

namespace PolyAlgebra

/-! ### The largest number -/

namespace Exact

variable {K : Type} [Field K] [LinearOrder K] [FloorRing K] [Unsettled K]

theorem isUndefined_eq_false (x : K) : Number.isUndefined x = false := by
  simp [Number.isUndefined]

theorem larger_eq_max (a b : K) : Number.larger a b = max a b := by
  rw [Number.larger]
  split
  · rename_i h
    exact (max_eq_right_of_lt h).symm
  · rename_i h
    exact (max_eq_left (not_lt.mp h)).symm

theorem isGreatest_foldl_larger (xs : List K) (a : K) :
    IsGreatest {x | x ∈ a :: xs} (xs.foldl Number.larger a) := by
  induction xs generalizing a with
  | nil => simp [isGreatest_singleton]
  | cons x rest ih =>
    rw [List.foldl_cons, larger_eq_max]
    obtain ⟨hmem, hupper⟩ := ih (max a x)
    refine ⟨?_, fun y hy => ?_⟩
    · show rest.foldl Number.larger (max a x) ∈ a :: x :: rest
      rcases List.mem_cons.mp hmem with h | h
      · rw [h]
        rcases max_choice a x with hmax | hmax <;> rw [hmax] <;> simp
      · exact List.mem_cons_of_mem _ (List.mem_cons_of_mem _ h)
    · have hmax : max a x ≤ rest.foldl Number.larger (max a x) := hupper (by simp)
      rcases List.mem_cons.mp hy with rfl | hy
      · exact (le_max_left _ _).trans hmax
      · rcases List.mem_cons.mp hy with rfl | hy
        · exact (le_max_right _ _).trans hmax
        · exact hupper (List.mem_cons_of_mem _ hy)

theorem isGreatest_largest {xs : List K} (h : xs ≠ []) :
    IsGreatest {x | x ∈ xs} (Number.largest xs) := by
  cases xs with
  | nil => exact absurd rfl h
  | cons x rest =>
    rw [Number.largest_of_defined fun y _ => isUndefined_eq_false y]
    exact isGreatest_foldl_larger rest x

end Exact

/-! ### Degrees of monomials -/

namespace Laurent

variable {K : Type} [Field K] [LinearOrder K]

/-- The largest exponent of a monomial, zero if it mentions no variable. -/
noncomputable def degreeOf (m : String →₀ K) : K :=
  if h : m.support.Nonempty then m.support.sup' h m else 0

@[simp] theorem degreeOf_zero : degreeOf (0 : String →₀ K) = 0 := by simp [degreeOf]

theorem isGreatest_degreeOf {m : String →₀ K} (h : m ≠ 0) :
    IsGreatest {x | ∃ name, m name ≠ 0 ∧ m name = x} (degreeOf m) := by
  have hne : m.support.Nonempty := Finsupp.support_nonempty_iff.mpr h
  rw [degreeOf, dif_pos hne]
  constructor
  · obtain ⟨name, hname, heq⟩ := Finset.exists_mem_eq_sup' hne m
    exact ⟨name, Finsupp.mem_support_iff.mp hname, heq.symm⟩
  · rintro x ⟨name, hname, rfl⟩
    exact Finset.le_sup' m (Finsupp.mem_support_iff.mpr hname)

theorem ne_of_degreeOf_lt {m μ : String →₀ K} (h : degreeOf m < degreeOf μ) : m ≠ μ := by
  rintro rfl
  exact lt_irrefl _ h

omit [LinearOrder K] in
theorem coeff_single_add_single {m m' : String →₀ K} (c c' : K) (h : m ≠ m') :
    (AddMonoidAlgebra.single m c + AddMonoidAlgebra.single m' c' : Laurent K).coeff m = c := by
  rw [AddMonoidAlgebra.coeff_add, Finsupp.add_apply, AddMonoidAlgebra.coeff_single,
    AddMonoidAlgebra.coeff_single, Finsupp.single_eq_same, Finsupp.single_eq_of_ne h, add_zero]

@[simp] theorem degreeOf_single (name : String) (x : K) :
    degreeOf (Finsupp.single name x) = x := by
  by_cases hx : x = 0
  · rw [hx, Finsupp.single_zero, degreeOf_zero]
  · obtain ⟨other, hother, heq⟩ :=
      (isGreatest_degreeOf (Finsupp.single_ne_zero.mpr hx : Finsupp.single name x ≠ 0)).1
    rw [Finsupp.single_apply] at hother heq
    split at hother
    · rename_i h
      rw [← heq, if_pos h]
    · exact absurd rfl hother

end Laurent

variable {K : Type} [Field K] [LinearOrder K] [FloorRing K] [Unsettled K]

/-! ### Degrees of terms -/

namespace Term

theorem monomial_eq_zero_iff (t : Term K) : t.monomial = 0 ↔ t.powers = NameMap.empty := by
  constructor
  · intro h
    exact powers_eq_of_monomial_eq (u := zero) (h.trans NameMap.toFinsupp_empty.symm)
  · intro h
    rw [monomial, h, NameMap.toFinsupp_empty]

/-- The degree of a term is that of its monomial. -/
theorem degree_eq (t : Term K) : t.degree = Laurent.degreeOf t.monomial := by
  by_cases hempty : t.powers = NameMap.empty
  · have hconstant : t.isConstant = true := (NameMap.isEmpty_iff _).mpr hempty
    rw [degree, if_pos hconstant, t.monomial_eq_zero_iff.mpr hempty, Laurent.degreeOf_zero]
  · have hconstant : ¬ t.isConstant = true := fun h => hempty ((NameMap.isEmpty_iff _).mp h)
    have hvalues : t.powers.values ≠ [] := fun h =>
      hconstant (List.isEmpty_iff.mpr (List.map_eq_nil_iff.mp h))
    rw [degree, if_neg hconstant]
    refine IsGreatest.unique (Exact.isGreatest_largest hvalues) ?_
    have hset : {x | x ∈ t.powers.values} = {x | ∃ name, t.monomial name ≠ 0 ∧
        t.monomial name = x} := by
      refine Set.ext fun x => (t.powers.mem_values_iff x).trans ?_
      constructor
      · intro h
        obtain ⟨name, hget⟩ := h
        have hx : t.monomial name = x := by simp [monomial, hget]
        have hne : x ≠ 0 := by simpa using t.normalised.exponents name x hget
        exact ⟨name, hx ▸ hne, hx⟩
      · intro h
        obtain ⟨name, hne, rfl⟩ := h
        refine ⟨name, ?_⟩
        rw [monomial, NameMap.toFinsupp_apply] at hne ⊢
        cases hget : t.powers.get? name with
        | none => simp [hget] at hne
        | some x => rfl
    rw [hset]
    exact Laurent.isGreatest_degreeOf fun h => hempty (t.monomial_eq_zero_iff.mp h)

/-- A term that stands before another has at least its degree. -/
theorem degree_le_of_canonicalOrder {t u : Term K} (h : t.canonicalOrder u ≠ .gt) :
    u.degree ≤ t.degree := not_lt.mp (not_degree_lt h)

end Term

/-! ### Reduced sums -/

namespace TermSum

/-- A canonical sum whose terms are in canonical order. -/
structure Reduced (terms : TermSum K) : Prop where
  canonical : Canonical terms
  inOrder : InOrder Term.canonicalOrder terms

theorem reduced_reduce (terms : TermSum K) : Reduced (reduce terms) :=
  ⟨reduce_canonical terms, reduce_inOrder fun _ _ =>
    ⟨Exact.isUndefined_eq_false _, fun _ x _ => Exact.isUndefined_eq_false x⟩⟩

theorem isGreatest_degree {terms : TermSum K} (h : terms ≠ []) :
    IsGreatest {x | ∃ t ∈ terms, t.degree = x} (degree terms) := by
  have hempty : ¬ terms.isEmpty = true := by simpa using h
  have hmap : terms.map Term.degree ≠ [] := by simpa using h
  rw [degree, if_neg hempty]
  simpa [List.mem_map] using Exact.isGreatest_largest hmap

/-- The order of the terms does not matter. -/
theorem degree_perm {left right : TermSum K} (h : left.Perm right) :
    degree left = degree right := by
  cases left with
  | nil => rw [h.symm.eq_nil]
  | cons t rest =>
    have hne : right ≠ [] := fun hnil => List.cons_ne_nil t rest (hnil ▸ h).eq_nil
    have hgreatest := isGreatest_degree (List.cons_ne_nil t rest)
    simp only [h.mem_iff] at hgreatest
    exact hgreatest.unique (isGreatest_degree hne)

@[simp] theorem degree_zero : degree [(Term.zero : Term K)] = 0 := by
  obtain ⟨t, ht, heq⟩ := (isGreatest_degree (List.cons_ne_nil (Term.zero : Term K) [])).1
  rw [← heq, List.mem_singleton.mp ht, Term.degree_eq, (Term.monomial_eq_zero_iff _).mpr rfl,
    Laurent.degreeOf_zero]

/-- Every term of a polynomial is the value of some term of a sum for it. -/
theorem exists_mem_of_coeff_ne_zero {terms : TermSum K} {m : String →₀ K}
    (h : (polynomial terms).coeff m ≠ 0) : ∃ t ∈ terms, t.monomial = m := by
  by_contra hnone
  push Not at hnone
  exact h (polynomial_coeff_of_forall_ne hnone)

/-- A term of a polynomial whose degree no other term exceeds. -/
structure Starts (t : Term K) (p : Laurent K) : Prop where
  nonzero : t.coefficient ≠ 0
  coeff_eq : p.coeff t.monomial = t.coefficient
  degree_le : ∀ m, p.coeff m ≠ 0 → Laurent.degreeOf m ≤ Laurent.degreeOf t.monomial

/-- Of two terms the one with the larger degree comes first. -/
theorem Starts.eq_of_degree_lt {t : Term K} {m m' : String →₀ K} {c c' : K}
    (h : Starts t (AddMonoidAlgebra.single m c + AddMonoidAlgebra.single m' c')) (hc : c ≠ 0)
    (hlt : Laurent.degreeOf m' < Laurent.degreeOf m) : t.monomial = m ∧ t.coefficient = c := by
  have hne := (Laurent.ne_of_degreeOf_lt hlt).symm
  have heq := h.coeff_eq
  have hmonomial : t.monomial = m := by
    by_contra hother
    have hle := h.degree_le m (by rwa [Laurent.coeff_single_add_single c c' hne])
    rw [add_comm] at heq
    by_cases hother' : t.monomial = m'
    · rw [hother'] at hle
      exact not_lt.mpr hle hlt
    · rw [AddMonoidAlgebra.coeff_add, Finsupp.add_apply, AddMonoidAlgebra.coeff_single,
        AddMonoidAlgebra.coeff_single, Finsupp.single_eq_of_ne hother,
        Finsupp.single_eq_of_ne hother', add_zero] at heq
      exact h.nonzero heq.symm
  rw [hmonomial, Laurent.coeff_single_add_single c c' hne] at heq
  exact ⟨hmonomial, heq.symm⟩

/-- **A reduced sum starts with a term of the largest degree**, and this is its degree. -/
theorem Reduced.starts {terms : TermSum K} (h : Reduced terms) (hne : polynomial terms ≠ 0) :
    ∃ first rest, terms = first :: rest ∧ Starts first (polynomial terms) ∧
      degree terms = Laurent.degreeOf first.monomial := by
  cases terms with
  | nil => exact absurd rfl hne
  | cons first rest =>
    have hfirst : first ∈ first :: rest := List.mem_cons_self
    have hupper : ∀ t ∈ first :: rest, t.degree ≤ first.degree := by
      rw [List.forall_mem_cons]
      exact ⟨le_rfl, fun t ht =>
        Term.degree_le_of_canonicalOrder ((List.pairwise_cons.mp h.inOrder).1 t ht)⟩
    refine ⟨first, rest, rfl, ⟨h.canonical.coefficient_ne_zero hne hfirst,
      coeff_eq_coefficient h.canonical.monomial_ne hfirst, fun m hm => ?_⟩, ?_⟩
    · obtain ⟨t, ht, rfl⟩ := exists_mem_of_coeff_ne_zero hm
      rw [← t.degree_eq, ← first.degree_eq]
      exact hupper t ht
    · rw [← first.degree_eq]
      refine (isGreatest_degree (List.cons_ne_nil _ _)).unique ⟨⟨first, hfirst, rfl⟩, ?_⟩
      rintro x ⟨t, ht, rfl⟩
      exact hupper t ht

end TermSum

end PolyAlgebra
