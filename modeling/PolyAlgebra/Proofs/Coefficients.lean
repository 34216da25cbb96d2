/-
A canonical sum is determined by the polynomial it stands for.

In a canonical sum at most one term has a given monomial, so the coefficient of a monomial can
be looked up in the list, and what is found is the coefficient in the polynomial
(`coefficientOf_eq`).  Two canonical sums for the same polynomial therefore have the same
terms, zeros aside, in some order.
-/
import Mathlib
import PolyAlgebra.Proofs.Canonical
import PolyAlgebra.Proofs.Laurent

namespace PolyAlgebra

variable {K : Type} [Field K] [LinearOrder K] [FloorRing K] [Unsettled K]

/-- Terms with the same exponents hold the same map. -/
theorem Term.powers_eq_of_monomial_eq {t u : Term K} (h : t.monomial = u.monomial) :
    t.powers = u.powers := by
  refine NameMap.ext fun name => ?_
  have hname : (t.powers.get? name).getD 0 = (u.powers.get? name).getD 0 :=
    DFunLike.congr_fun h name
  cases hget : t.powers.get? name with
  | none =>
    cases hget' : u.powers.get? name with
    | none => rfl
    | some exponent =>
      -- the other term would hold a zero exponent
      have hne := u.normalised.exponents name exponent hget'
      simp_all
  | some exponent =>
    have hne := t.normalised.exponents name exponent hget
    cases hget' : u.powers.get? name with
    | none => simp_all
    | some exponent' => simp_all

namespace TermSum

/-- The coefficient of a monomial as it stands in a list of terms, zero if no term has it. -/
noncomputable def coefficientOf (m : String →₀ K) (terms : TermSum K) : K :=
  open Classical in
  match terms.find? (fun t => decide (t.monomial = m)) with
  | some t => t.coefficient
  | none => 0

/-- The terms that are not zero. -/
def nonzeroTerms (terms : TermSum K) : TermSum K := terms.filter (fun t => !t.isZero)

theorem mem_nonzeroTerms {t : Term K} {terms : TermSum K} :
    t ∈ nonzeroTerms terms ↔ t ∈ terms ∧ t.coefficient ≠ 0 := by
  rw [nonzeroTerms, List.mem_filter, Bool.not_eq_true', ← Bool.not_eq_true, Term.isZero_iff]

theorem polynomial_coeff_cons (t : Term K) (rest : TermSum K) (m : String →₀ K) :
    (polynomial (t :: rest)).coeff m
      = (if t.monomial = m then t.coefficient else 0) + (polynomial rest).coeff m := by
  rw [polynomial_cons, AddMonoidAlgebra.coeff_add, Finsupp.add_apply, Term.polynomial,
    AddMonoidAlgebra.coeff_single, Finsupp.single_apply]

theorem polynomial_coeff_of_forall_ne {terms : TermSum K} {m : String →₀ K}
    (h : ∀ t ∈ terms, t.monomial ≠ m) : (polynomial terms).coeff m = 0 := by
  induction terms with
  | nil => rfl
  | cons t rest ih =>
    obtain ⟨ht, hrest⟩ := List.forall_mem_cons.mp h
    rw [polynomial_coeff_cons, if_neg ht, ih hrest, zero_add]

theorem Canonical.monomial_ne {terms : TermSum K} (h : Canonical terms) :
    terms.Pairwise (fun t u => t.monomial ≠ u.monomial) := by
  refine List.Pairwise.imp_of_mem ?_ h.distinct
  intro t u ht hu hne heq
  have := Term.powers_eq_of_monomial_eq heq
  rw [(Term.hasPowersOf_iff t u).mpr this] at hne
  cases hne

theorem Canonical.eq_of_monomial_eq {terms : TermSum K} (h : Canonical terms) {t u : Term K}
    (ht : t ∈ terms) (hu : u ∈ terms) (heq : t.monomial = u.monomial) : t = u := by
  have : Std.Symm (fun t u : Term K => t.monomial ≠ u.monomial) := ⟨fun _ _ => Ne.symm⟩
  by_contra hne
  exact h.monomial_ne.forall ht hu hne heq

/-- The coefficient in the polynomial is the one that stands in the list. -/
theorem coeff_eq_coefficient {terms : TermSum K}
    (h : terms.Pairwise (fun t u => t.monomial ≠ u.monomial)) {t : Term K} (ht : t ∈ terms) :
    (polynomial terms).coeff t.monomial = t.coefficient := by
  induction terms with
  | nil => simp at ht
  | cons s rest ih =>
    obtain ⟨hhead, htail⟩ := List.pairwise_cons.mp h
    rw [polynomial_coeff_cons]
    rcases List.mem_cons.mp ht with rfl | ht
    · rw [if_pos rfl, polynomial_coeff_of_forall_ne fun u hu => (hhead u hu).symm, add_zero]
    · rw [if_neg (hhead t ht), ih htail ht, zero_add]

/-- **Looking a coefficient up in a canonical sum gives the coefficient in the polynomial.** -/
theorem coefficientOf_eq {terms : TermSum K} (h : Canonical terms) (m : String →₀ K) :
    coefficientOf m terms = (polynomial terms).coeff m := by
  classical
  rw [coefficientOf]
  split
  · rename_i t hfind
    have hm : t.monomial = m := by simpa using List.find?_some hfind
    rw [← hm, coeff_eq_coefficient h.monomial_ne (List.mem_of_find?_eq_some hfind)]
  · rename_i hfind
    refine (polynomial_coeff_of_forall_ne fun t ht => ?_).symm
    simpa using List.find?_eq_none.mp hfind t ht

theorem mem_nonzeroTerms_iff_coeff {terms : TermSum K} (h : Canonical terms) (t : Term K) :
    t ∈ nonzeroTerms terms ↔
      t.coefficient ≠ 0 ∧ (polynomial terms).coeff t.monomial = t.coefficient := by
  rw [mem_nonzeroTerms]
  constructor
  · intro h
    obtain ⟨ht, hne⟩ := h
    exact ⟨hne, coeff_eq_coefficient h.monomial_ne ht⟩
  · intro h
    obtain ⟨hne, hcoeff⟩ := h
    have hexists : ∃ u ∈ terms, u.monomial = t.monomial := by
      by_contra hnone
      push Not at hnone
      exact hne (hcoeff ▸ polynomial_coeff_of_forall_ne hnone)
    obtain ⟨u, hu, hmonomial⟩ := hexists
    have hpowers := Term.powers_eq_of_monomial_eq hmonomial
    have hcoefficient : u.coefficient = t.coefficient := by
      rw [← hcoeff, ← hmonomial, coeff_eq_coefficient h.monomial_ne hu]
    exact ⟨Term.ext hcoefficient hpowers ▸ hu, hne⟩

theorem Canonical.nodup {terms : TermSum K} (h : Canonical terms) : terms.Nodup :=
  h.monomial_ne.imp fun hne heq => hne (congrArg Term.monomial heq)

theorem polynomial_nonzeroTerms (terms : TermSum K) :
    polynomial (nonzeroTerms terms) = polynomial terms := by
  induction terms with
  | nil => rfl
  | cons t rest ih =>
    cases hz : t.isZero with
    | true =>
      have hzero : t.polynomial = 0 := by
        rw [Term.polynomial, (Term.isZero_iff t).mp hz, AddMonoidAlgebra.single_zero]
      have : nonzeroTerms (t :: rest) = nonzeroTerms rest := by simp [nonzeroTerms, hz]
      rw [this, ih, polynomial_cons, hzero, zero_add]
    | false =>
      have : nonzeroTerms (t :: rest) = t :: nonzeroTerms rest := by simp [nonzeroTerms, hz]
      rw [this, polynomial_cons, ih, polynomial_cons]

/-- **Canonical sums have the same terms exactly if they stand for the same polynomial.** -/
theorem nonzeroTerms_perm_iff {left right : TermSum K} (hl : Canonical left)
    (hr : Canonical right) :
    (nonzeroTerms left).Perm (nonzeroTerms right) ↔ polynomial left = polynomial right := by
  constructor
  · intro h
    rw [← polynomial_nonzeroTerms left, ← polynomial_nonzeroTerms right, polynomial_perm h]
  · intro h
    refine (List.perm_ext_iff_of_nodup (hl.nodup.filter _) (hr.nodup.filter _)).mpr fun t => ?_
    show t ∈ nonzeroTerms left ↔ t ∈ nonzeroTerms right
    rw [mem_nonzeroTerms_iff_coeff hl, mem_nonzeroTerms_iff_coeff hr, h]

/-- A canonical sum for zero is the zero sum. -/
theorem Canonical.eq_zero {terms : TermSum K} (h : Canonical terms) (hp : polynomial terms = 0) :
    terms = [Term.zero] := by
  rcases h.zeroAlone with heq | ⟨hne, hnonzero⟩
  · exact heq
  · obtain ⟨t, rest, rfl⟩ := List.exists_cons_of_ne_nil hne
    have ht : t ∈ t :: rest := List.mem_cons_self
    have hcoeff := coeff_eq_coefficient h.monomial_ne ht
    rw [hp] at hcoeff
    exact absurd hcoeff.symm ((Term.isZero_eq_false_iff t).mp (hnonzero t ht))

theorem Canonical.polynomial_ne_zero {terms : TermSum K} (h : Canonical terms)
    (hnonzero : ∀ t ∈ terms, t.isZero = false) : polynomial terms ≠ 0 := by
  intro hp
  have hzero := hnonzero Term.zero (by rw [h.eq_zero hp]; exact List.mem_cons_self)
  rw [Term.isZero_zero] at hzero
  cases hzero

/-- In every other canonical sum no term is zero. -/
theorem Canonical.coefficient_ne_zero {terms : TermSum K} (h : Canonical terms)
    (hne : polynomial terms ≠ 0) {t : Term K} (ht : t ∈ terms) : t.coefficient ≠ 0 := by
  rcases h.zeroAlone with rfl | ⟨-, hnonzero⟩
  · exact absurd (by simp [Term.polynomial_zero]) hne
  · exact (Term.isZero_eq_false_iff t).mp (hnonzero t ht)

/-- Canonical sums for the same polynomial differ in the order of the terms only. -/
theorem Canonical.perm_of_polynomial_eq {left right : TermSum K} (hl : Canonical left)
    (hr : Canonical right) (h : polynomial left = polynomial right) : left.Perm right := by
  by_cases hzero : polynomial left = 0
  · rw [hl.eq_zero hzero, hr.eq_zero (h ▸ hzero)]
  · have hself : ∀ {terms : TermSum K}, Canonical terms → polynomial terms ≠ 0 →
        nonzeroTerms terms = terms := fun hc hne =>
      List.filter_eq_self.mpr fun t ht => by
        rw [(Term.isZero_eq_false_iff t).mpr (hc.coefficient_ne_zero hne ht)]
        rfl
    rw [← hself hl hzero, ← hself hr (h ▸ hzero)]
    exact (nonzeroTerms_perm_iff hl hr).mpr h

end TermSum

end PolyAlgebra
