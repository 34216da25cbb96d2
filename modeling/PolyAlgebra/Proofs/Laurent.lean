/-
Sums of terms as formal Laurent polynomials.

In exact arithmetic a term stands for a coefficient times a monomial, and a monomial is a
finitely supported map from names to exponents.  So a sum of terms stands for an element of
the algebra of these monomials, in which exponents may be negative.  (They may be fractional
too; where all exponents are whole this is the ring of Laurent polynomials.)

The point of the translation is that it forgets everything canonical form is about.  Merging
like terms, dropping zeros and sorting do not change the element (`polynomial_reduce`), and
the operations on sums become those of the ring.
-/
import Mathlib
import PolyAlgebra.Proofs.Exact
import PolyAlgebra.Proofs.NameMap
import PolyAlgebra.TermSum.Basic

namespace PolyAlgebra

/-- Formal sums of multiples of monomials, whose exponents may be negative. -/
abbrev Laurent (K : Type) [Semiring K] := AddMonoidAlgebra K (String →₀ K)

/-! ### Monomials -/

section Monomials

variable {K : Type} [Field K]

/-- The exponents filed in a map, zero for every name that is not there. -/
noncomputable def NameMap.toFinsupp (m : NameMap K) : String →₀ K :=
  Finsupp.onFinset m.names.toFinset (fun name => (m.get? name).getD 0) (by
    intro name h
    rw [List.mem_toFinset, mem_names_iff]
    cases hv : m.get? name with
    | none => simp [hv] at h
    | some value => exact ⟨value, rfl⟩)

@[simp] theorem NameMap.toFinsupp_apply (m : NameMap K) (name : String) :
    m.toFinsupp name = (m.get? name).getD 0 := rfl

@[simp] theorem NameMap.toFinsupp_empty : (NameMap.empty : NameMap K).toFinsupp = 0 := by
  ext name
  simp

/-- Filing an exponent under a new name adds the power of that name. -/
theorem NameMap.toFinsupp_insert {m : NameMap K} {name : String} (h : m.toFinsupp name = 0)
    (exponent : K) :
    (m.insert name exponent).toFinsupp = m.toFinsupp + Finsupp.single name exponent := by
  ext other
  rw [NameMap.toFinsupp_apply, NameMap.get?_insert, Finsupp.add_apply, Finsupp.single_apply]
  by_cases hother : other = name
  · subst hother
    rw [if_pos rfl, if_pos rfl, h, zero_add]
    rfl
  · rw [if_neg hother, if_neg (Ne.symm hother), add_zero, NameMap.toFinsupp_apply]

/-- Powers of different names are filed one beside the other. -/
theorem NameMap.toFinsupp_ofList {pairs : List (String × K)} (h : (pairs.map Prod.fst).Nodup) :
    (NameMap.ofList pairs).toFinsupp = (pairs.map fun e => Finsupp.single e.1 e.2).sum := by
  have key : ∀ (pairs : List (String × K)) (acc : NameMap K), (pairs.map Prod.fst).Nodup →
      (∀ e ∈ pairs, acc.toFinsupp e.1 = 0) →
      (pairs.foldl (fun m e => m.insert e.1 e.2) acc).toFinsupp
        = acc.toFinsupp + (pairs.map fun e => Finsupp.single e.1 e.2).sum := by
    intro pairs
    induction pairs with
    | nil => intro acc _ _; simp
    | cons e rest ih =>
      intro acc hnodup hacc
      obtain ⟨he, hrest⟩ := List.nodup_cons.mp hnodup
      obtain ⟨hacc_e, hacc⟩ := List.forall_mem_cons.mp hacc
      have hinsert := toFinsupp_insert hacc_e e.2
      rw [List.foldl_cons, ih _ hrest fun e' he' => ?_, hinsert, add_assoc, List.map_cons,
        List.sum_cons]
      have hne : e.1 ≠ e'.1 := fun heq => he (heq ▸ List.mem_map_of_mem he')
      rw [hinsert, Finsupp.add_apply, hacc e' he', Finsupp.single_eq_of_ne' hne, add_zero]
  rw [ofList, key pairs empty h (by simp), toFinsupp_empty, zero_add]

/-- Every monomial is that of some map of exponents. -/
theorem NameMap.toFinsupp_surjective :
    Function.Surjective (NameMap.toFinsupp : NameMap K → String →₀ K) := by
  intro m
  induction m using Finsupp.induction with
  | zero => exact ⟨NameMap.empty, NameMap.toFinsupp_empty⟩
  | single_add name exponent m hname _ ih =>
    obtain ⟨p, rfl⟩ := ih
    refine ⟨p.insert name exponent, ?_⟩
    rw [NameMap.toFinsupp_insert (Finsupp.notMem_support_iff.mp hname), add_comm]

/-- A map with the exponents of a monomial. -/
noncomputable def NameMap.ofFinsupp (m : String →₀ K) : NameMap K :=
  Function.surjInv toFinsupp_surjective m

theorem NameMap.toFinsupp_ofFinsupp (m : String →₀ K) : (ofFinsupp m).toFinsupp = m :=
  Function.surjInv_eq toFinsupp_surjective m

/-- A product over a monomial is a product over the entries. -/
theorem NameMap.prod_toFinsupp (m : NameMap K) (h : String → K → K) (h0 : ∀ name, h name 0 = 1) :
    m.toFinsupp.prod h = (m.entries.map (fun e => h e.1 e.2)).prod := by
  have hsub : m.toFinsupp.support ⊆ m.names.toFinset := Finsupp.support_onFinset_subset
  rw [Finsupp.prod_of_support_subset _ hsub _ (fun name _ => h0 name),
    List.prod_toFinset _ m.nodup_names, NameMap.names, List.map_map]
  congr 1
  refine List.map_congr_left fun e he => ?_
  have hget := (m.mem_entries_iff e.1 e.2).mp he
  simp [hget]

end Monomials

variable {K : Type} [Field K] [LinearOrder K] [FloorRing K] [Unsettled K]

/-! ### Terms -/

namespace Term

/-- The exponents of a term. -/
noncomputable def monomial (t : Term K) : String →₀ K := t.powers.toFinsupp

/-- The element that a term stands for. -/
noncomputable def polynomial (t : Term K) : Laurent K :=
  AddMonoidAlgebra.single t.monomial t.coefficient

theorem isZero_iff (t : Term K) : t.isZero = true ↔ t.coefficient = 0 := by
  show (t.coefficient == 0) = true ↔ _
  simp

theorem isZero_eq_false_iff (t : Term K) : t.isZero = false ↔ t.coefficient ≠ 0 := by
  rw [← Bool.not_eq_true, isZero_iff]

theorem hasPowersOf_iff (t u : Term K) : t.hasPowersOf u = true ↔ t.powers = u.powers := by
  show t.powers.agrees (· == ·) u.powers = true ↔ _
  exact NameMap.agrees_eq_iff t.powers u.powers

theorem toFinsupp_filter_nonzero (powers : NameMap K) :
    (powers.filter (fun _ exponent => exponent != 0)).toFinsupp = powers.toFinsupp := by
  ext name
  rw [NameMap.toFinsupp_apply, NameMap.toFinsupp_apply, NameMap.get?_filter]
  cases hv : powers.get? name with
  | none => rfl
  | some value =>
    by_cases h0 : value = 0
    · subst h0
      simp [Option.filter]
    · simp [Option.filter, h0]

/-- Normalising changes the form of a term but not what it stands for. -/
theorem polynomial_normalise (coefficient : K) (powers : NameMap K) :
    (normalise coefficient powers).polynomial
      = AddMonoidAlgebra.single powers.toFinsupp coefficient := by
  by_cases hc : coefficient = 0
  · rw [normalise_of_isZero (by simpa using hc), hc, polynomial, AddMonoidAlgebra.single_zero]
    exact AddMonoidAlgebra.single_zero _
  · rw [normalise_of_ne (by simpa using hc), polynomial, monomial, toFinsupp_filter_nonzero]

theorem polynomial_ofPowers (coefficient : K) {pairs : List (String × K)}
    (h : (pairs.map Prod.fst).Nodup) :
    (ofPowers coefficient pairs).polynomial
      = AddMonoidAlgebra.single (pairs.map fun e => Finsupp.single e.1 e.2).sum coefficient := by
  have hnodup : ((pairs.filter fun e => e.2 != 0).map Prod.fst).Nodup :=
    h.sublist (List.filter_sublist.map _)
  rw [ofPowers, polynomial_normalise, NameMap.toFinsupp_ofList hnodup]
  congr 1
  induction pairs with
  | nil => rfl
  | cons e rest ih =>
    have ih := ih (List.nodup_cons.mp h).2 ((List.nodup_cons.mp h).2.sublist
      (List.filter_sublist.map _))
    by_cases he : e.2 = 0
    · simp [he, ih]
    · simp [he, ih]

theorem polynomial_zero : (zero : Term K).polynomial = 0 := AddMonoidAlgebra.single_zero _

theorem polynomial_withCoefficient (t : Term K) (coefficient : K) :
    (t.withCoefficient coefficient).polynomial
      = AddMonoidAlgebra.single t.monomial coefficient :=
  polynomial_normalise coefficient t.powers

theorem polynomial_negate (t : Term K) : t.negate.polynomial = -t.polynomial := by
  have : t.negate = t.withCoefficient (t.coefficient * -1) := rfl
  rw [this, polynomial_withCoefficient, mul_neg_one, AddMonoidAlgebra.single_neg, polynomial]

/-- The exponents of a product are the sums of the exponents. -/
theorem toFinsupp_overlay_add (p q : NameMap K) :
    (p.overlay (fun ours theirs => ours.getD 0 + theirs) q).toFinsupp
      = p.toFinsupp + q.toFinsupp := by
  ext name
  rw [Finsupp.add_apply, NameMap.toFinsupp_apply, NameMap.toFinsupp_apply,
    NameMap.toFinsupp_apply, NameMap.get?_overlay]
  cases q.get? name with
  | none => simp
  | some value => simp

theorem polynomial_multiply (t u : Term K) :
    (t.multiply u).polynomial = t.polynomial * u.polynomial := by
  have : (t.multiply u).polynomial
      = AddMonoidAlgebra.single (t.monomial + u.monomial) (t.coefficient * u.coefficient) := by
    rw [multiply, polynomial_normalise]
    exact congrArg (AddMonoidAlgebra.single · _) (toFinsupp_overlay_add t.powers u.powers)
  rw [this, polynomial, polynomial, AddMonoidAlgebra.single_mul_single]

/-- Adding like terms adds up what they stand for. -/
theorem polynomial_add_like {t u : Term K} (h : t.hasPowersOf u = true) :
    (t.withCoefficient (t.coefficient + u.coefficient)).polynomial
      = t.polynomial + u.polynomial := by
  have hpowers : t.monomial = u.monomial :=
    congrArg NameMap.toFinsupp ((hasPowersOf_iff t u).mp h)
  rw [polynomial_withCoefficient]
  show AddMonoidAlgebra.single t.monomial (t.coefficient + u.coefficient) = _
  rw [AddMonoidAlgebra.single_add, polynomial, polynomial, hpowers]

end Term

/-! ### Sums -/

namespace TermSum

/-- The element that a sum of terms stands for. -/
noncomputable def polynomial (terms : TermSum K) : Laurent K := (terms.map Term.polynomial).sum

@[simp] theorem polynomial_nil : polynomial ([] : TermSum K) = 0 := rfl

@[simp] theorem polynomial_cons (t : Term K) (rest : TermSum K) :
    polynomial (t :: rest) = t.polynomial + polynomial rest := by
  simp [polynomial]

@[simp] theorem polynomial_append (left right : TermSum K) :
    polynomial (left ++ right) = polynomial left + polynomial right := by
  simp [polynomial]

theorem polynomial_perm {left right : TermSum K} (h : left.Perm right) :
    polynomial left = polynomial right :=
  (h.map Term.polynomial).sum_eq

theorem polynomial_mergeTerm (t : Term K) (terms : TermSum K) :
    polynomial (mergeTerm t terms) = polynomial terms + t.polynomial := by
  induction terms with
  | nil => simp [mergeTerm]
  | cons s rest ih =>
    rw [mergeTerm]
    by_cases hp : s.hasPowersOf t = true
    · have hmerged := Term.polynomial_add_like hp
      rw [if_pos hp]
      by_cases hz : (s.withCoefficient (s.coefficient + t.coefficient)).isZero = true
      · -- the two cancel, so the merged term that is dropped stands for zero
        have hzero : (s.withCoefficient (s.coefficient + t.coefficient)).polynomial = 0 := by
          rw [Term.polynomial, (Term.isZero_iff _).mp hz, AddMonoidAlgebra.single_zero]
        rw [hzero] at hmerged
        rw [if_pos hz, polynomial_cons, add_right_comm, ← hmerged, zero_add]
      · rw [if_neg hz, polynomial_cons, hmerged, polynomial_cons]
        exact add_right_comm _ _ _
    · rw [if_neg hp, polynomial_cons, ih, polynomial_cons, add_assoc]

theorem polynomial_mergeStep (terms : TermSum K) (t : Term K) :
    polynomial (mergeStep terms t) = polynomial terms + t.polynomial := by
  rw [mergeStep]
  by_cases hz : t.isZero = true
  · have hzero : t.polynomial = 0 := by
      rw [Term.polynomial, (Term.isZero_iff t).mp hz, AddMonoidAlgebra.single_zero]
    rw [if_pos hz, hzero, add_zero]
  · rw [if_neg hz, polynomial_mergeTerm]

theorem polynomial_merge (terms : TermSum K) : polynomial (merge terms) = polynomial terms := by
  have key : ∀ (ts acc : TermSum K),
      polynomial (ts.foldl mergeStep acc) = polynomial acc + polynomial ts := by
    intro ts
    induction ts with
    | nil => intro acc; simp
    | cons t rest ih =>
      intro acc
      rw [List.foldl_cons, ih, polynomial_mergeStep, polynomial_cons, add_assoc]
  rw [merge, key, polynomial_nil, zero_add]

theorem polynomial_orZero (terms : TermSum K) : polynomial (orZero terms) = polynomial terms := by
  cases terms with
  | nil => simp [orZero, Term.polynomial_zero]
  | cons t rest => rfl

/-- **Canonical form stands for the same element.** -/
theorem polynomial_reduce (terms : TermSum K) : polynomial (reduce terms) = polynomial terms := by
  rw [reduce, polynomial_perm (stableSort_perm _ _), polynomial_orZero, polynomial_merge]

theorem polynomial_negate (terms : TermSum K) : polynomial (negate terms) = -polynomial terms := by
  induction terms with
  | nil => simp [negate]
  | cons t rest ih =>
    have : negate (t :: rest) = t.negate :: negate rest := rfl
    rw [this, polynomial_cons, polynomial_cons, ih, Term.polynomial_negate, neg_add]

theorem polynomial_products (left right : TermSum K) :
    polynomial (products left right) = polynomial left * polynomial right := by
  have hrow : ∀ (l : Term K), polynomial (right.map (fun r => l.multiply r))
      = l.polynomial * polynomial right := by
    intro l
    induction right with
    | nil => simp
    | cons r rest ih => simp [Term.polynomial_multiply, ih, mul_add]
  induction left with
  | nil => simp [products]
  | cons l rest ih =>
    have : products (l :: rest) right
        = right.map (fun r => l.multiply r) ++ products rest right := rfl
    rw [this, polynomial_append, hrow, ih, polynomial_cons, add_mul]

end TermSum

end PolyAlgebra
