/-
The value of a sum is the value of the polynomial it stands for.

Evaluating a formal polynomial is additive whatever the variables are, so a sum whose variables
are all bound (`Bound`) has the value of its polynomial.  Evaluation is multiplicative only
where powers of a variable multiply by adding exponents, and that fails for the power of zero
with a negative exponent.  `Admits` is the condition under which nothing fails: every variable
is bound, every exponent is whole, and no zero is raised to a negative one.  All operations on
terms preserve both conditions, so they have to be checked at the leaves of an expression only.
-/
import Mathlib
import PolyAlgebra.Expr.Value
import PolyAlgebra.Proofs.Canonical
import PolyAlgebra.Proofs.Laurent
import PolyAlgebra.Proofs.Leaves

namespace PolyAlgebra

/-! ### Terms whose variables are bound -/

section Bound

variable {α : Type} [Number α]

/-- Every variable that the term mentions has a value. -/
def Term.Bound (t : Term α) (b : Bindings α) : Prop :=
  ∀ name exponent, t.powers.get? name = some exponent → ∃ x, b name = some x

variable {b : Bindings α}

/-- Where the variables of an expression are bound, those of its terms are. -/
theorem Expr.bound_of_variableNames {e : Expr α}
    (h : ∀ name ∈ e.variableNames, ∃ x, b name = some x) : ∀ t ∈ e.leafTerms, t.Bound b :=
  fun t ht name exponent hget =>
    h name ((mem_variableNames_iff e name).mpr ⟨t, ht, exponent, hget⟩)

theorem Term.Bound.zero : (Term.zero : Term α).Bound b := Term.within_zero

/-- Normalising a term mentions no new variable. -/
theorem Term.Bound.normalise (c : α) {p : NameMap α}
    (hp : ∀ name exponent, p.get? name = some exponent → ∃ x, b name = some x) :
    (Term.normalise c p).Bound b :=
  Term.within_normalise (S := {name | ∃ x, b name = some x}) c hp

theorem TermSum.reduce_bound {terms : TermSum α} (h : ∀ t ∈ terms, t.Bound b) :
    ∀ t ∈ reduce terms, t.Bound b :=
  TermSum.reduce_within (S := {name | ∃ x, b name = some x}) h

end Bound

/-! ### Bindings that agree -/

section Congr

variable {α : Type} [Number α]

/-- Arguments that have the same values one by one have the same list of values. -/
theorem Expr.values_congr {es : List (Expr α)} {f : Expr α → Expr α} {b b' : Bindings α}
    (h : ∀ e ∈ es, (f e).value b = e.value b') : values (es.map f) b = values es b' := by
  induction es with
  | nil => rfl
  | cons e rest ih =>
    obtain ⟨he, hrest⟩ := List.forall_mem_cons.mp h
    rw [List.map_cons, values, values, he, ih hrest]

variable {b b' : Bindings α}

theorem Term.value_congr {t : Term α}
    (h : ∀ name exponent, t.powers.get? name = some exponent → b name = b' name) :
    t.value b = t.value b' := by
  have key : ∀ (es : List (String × α)) (c : α), (∀ e ∈ es, b e.1 = b' e.1) →
      es.foldlM (value.multiplyPower b) c = es.foldlM (value.multiplyPower b') c := by
    intro es
    induction es with
    | nil => intro c _; rfl
    | cons e rest ih =>
      intro c hes
      obtain ⟨he, hrest⟩ := List.forall_mem_cons.mp hes
      rw [List.foldlM_cons, List.foldlM_cons, value.multiplyPower, value.multiplyPower, he]
      exact congrArg (_ >>= ·) (funext fun c => ih c hrest)
  exact key _ _ fun e he => h e.1 e.2 ((t.powers.mem_entries_iff e.1 e.2).mp he)

theorem TermSum.value_congr {terms : TermSum α} (h : ∀ t ∈ terms, t.value b = t.value b') :
    value terms b = value terms b' := by
  have key : ∀ ts : TermSum α, (∀ t ∈ ts, t.value b = t.value b') →
      ts.mapM (fun t => t.value b) = ts.mapM fun t => t.value b' := by
    intro ts
    induction ts with
    | nil => intro _; rfl
    | cons t rest ih =>
      intro hts
      obtain ⟨ht, hrest⟩ := List.forall_mem_cons.mp hts
      rw [List.mapM_cons, List.mapM_cons, ht, ih hrest]
  rw [value, value, key terms h]

/-- **The value depends only on what the variables of the expression are bound to.** -/
theorem Expr.value_congr {e : Expr α} (h : ∀ name ∈ e.variableNames, b name = b' name) :
    e.value b = e.value b' := by
  have key : ∀ e : Expr α, (∀ t ∈ e.leafTerms, t.value b = t.value b') →
      e.value b = e.value b' := by
    intro e
    induction e using Expr.induct with
    | sum terms => exact fun hterms => TermSum.value_congr hterms
    | binary op left right ihl ihr =>
      intro hterms
      obtain ⟨hl, hr⟩ := forall_leafTerms_binary.mp hterms
      rw [value, value, ihl hl, ihr hr]
    | call f arguments ih =>
      intro hterms
      have hall := forall_leafTerms_call.mp hterms
      have hvalues := values_congr (f := id) fun e he => ih e he (hall e he)
      rw [List.map_id] at hvalues
      rw [value, value, hvalues]
  exact key e fun t ht => Term.value_congr fun name exponent hget =>
    h name ((mem_variableNames_iff e name).mpr ⟨t, ht, exponent, hget⟩)

end Congr

variable {K : Type} [Field K] [LinearOrder K] [FloorRing K] [Unsettled K]

/-- The number a variable stands for, zero if it is not bound. -/
def Bindings.number (b : Bindings K) (name : String) : K := (b name).getD 0

/-! ### Monomials that have a value -/

/-- Every variable is bound, every exponent whole, and no zero has a negative exponent. -/
structure NameMap.Admits (p : NameMap K) (b : Bindings K) : Prop where
  bound : ∀ name exponent, p.get? name = some exponent → ∃ x, b name = some x
  whole : ∀ name, ∃ n : Int, p.toFinsupp name = n ∧ (n < 0 → b.number name ≠ 0)

/-- A term whose powers have values. -/
def Term.Admits (t : Term K) (b : Bindings K) : Prop := t.powers.Admits b

section Preservation

variable {b : Bindings K}

theorem NameMap.Admits.empty : (NameMap.empty : NameMap K).Admits b :=
  ⟨fun name exponent h => by simp at h, fun name => ⟨0, by simp⟩⟩

theorem NameMap.Admits.filter {p : NameMap K} (h : p.Admits b) :
    (p.filter (fun _ exponent => exponent != 0)).Admits b := by
  refine ⟨fun name exponent hget => ?_, fun name => ?_⟩
  · rw [NameMap.get?_filter] at hget
    exact h.bound name exponent (Option.filter_eq_some_iff.mp hget).1
  · rw [Term.toFinsupp_filter_nonzero]
    exact h.whole name

theorem NameMap.Admits.overlay {p q : NameMap K} (hp : p.Admits b) (hq : q.Admits b) :
    (p.overlay (fun ours theirs => ours.getD 0 + theirs) q).Admits b := by
  refine ⟨fun name exponent hget => ?_, fun name => ?_⟩
  · rw [NameMap.get?_overlay] at hget
    cases hq' : q.get? name with
    | none =>
      rw [hq'] at hget
      exact hp.bound name exponent hget
    | some theirs => exact hq.bound name theirs hq'
  · obtain ⟨m, hm, hm0⟩ := hp.whole name
    obtain ⟨n, hn, hn0⟩ := hq.whole name
    refine ⟨m + n, ?_, fun hneg => ?_⟩
    · rw [Term.toFinsupp_overlay_add, Finsupp.add_apply, hm, hn]
      push_cast
      rfl
    · rcases lt_or_ge m 0 with hlt | hge
      · exact hm0 hlt
      · exact hn0 (by omega)

theorem Term.Admits.normalise (c : K) {p : NameMap K} (hp : p.Admits b) :
    (Term.normalise c p).Admits b := by
  cases hc : c == 0 with
  | true =>
    rw [Term.normalise_of_isZero hc]
    exact NameMap.Admits.empty
  | false =>
    rw [Term.normalise_of_ne hc]
    exact hp.filter

theorem Term.Admits.multiply {t u : Term K} (ht : t.Admits b) (hu : u.Admits b) :
    (t.multiply u).Admits b := Term.Admits.normalise _ (NameMap.Admits.overlay ht hu)

theorem Term.Admits.negate {t : Term K} (ht : t.Admits b) : t.negate.Admits b :=
  Term.Admits.normalise _ ht

end Preservation

/-! ### Evaluating polynomials -/

/-- The value of a monomial. -/
noncomputable def monomialValue (b : Bindings K) (m : String →₀ K) : K :=
  m.prod fun name exponent => Number.pow (b.number name) exponent

/-- The value of a formal polynomial. -/
noncomputable def Laurent.valueAt (b : Bindings K) : Laurent K →+ K :=
  AddMonoidAlgebra.liftNC (AddMonoidHom.id K) fun m => monomialValue b m.toAdd

theorem Laurent.valueAt_single (b : Bindings K) (m : String →₀ K) (c : K) :
    Laurent.valueAt b (AddMonoidAlgebra.single m c) = c * monomialValue b m :=
  AddMonoidAlgebra.liftNC_single _ _ _ _

theorem Laurent.valueAt_constant (b : Bindings K) (c : K) :
    Laurent.valueAt b (AddMonoidAlgebra.single 0 c) = c := by
  rw [Laurent.valueAt_single, monomialValue, Finsupp.prod_zero_index, mul_one]

theorem Term.valueAt_ofNumber {b : Bindings K} (c : K) :
    Laurent.valueAt b (Term.ofNumber c).polynomial = c := by
  rw [Term.ofNumber, Term.polynomial_normalise, NameMap.toFinsupp_empty, Laurent.valueAt_constant]

variable [IsStrictOrderedRing K] {b : Bindings K}

/-- The value of a monomial is the product over its powers. -/
theorem monomialValue_toFinsupp (p : NameMap K) :
    monomialValue b p.toFinsupp
      = (p.entries.map fun e => Number.pow (b.number e.1) e.2).prod :=
  p.prod_toFinsupp _ fun _ => Exact.pow_zero_exponent _

/-- Powers multiply by adding exponents, unless a zero has a negative exponent. -/
theorem pow_add_of_whole {x : K} {m n : Int} (hm : m < 0 → x ≠ 0) (hn : n < 0 → x ≠ 0) :
    Number.pow x ((m : K) + n) = Number.pow x (m : K) * Number.pow x (n : K) := by
  rw [← Int.cast_add, Exact.pow_intCast, Exact.pow_intCast, Exact.pow_intCast]
  refine zpow_add' ?_
  by_cases hx : x = 0
  · have hm' : ¬ m < 0 := fun h => hm h hx
    have hn' : ¬ n < 0 := fun h => hn h hx
    omega
  · exact Or.inl hx

theorem monomialValue_add {p q : NameMap K} (hp : p.Admits b) (hq : q.Admits b) :
    monomialValue b (p.toFinsupp + q.toFinsupp)
      = monomialValue b p.toFinsupp * monomialValue b q.toFinsupp := by
  have h0 : ∀ name ∈ p.toFinsupp.support ∪ q.toFinsupp.support,
      Number.pow (b.number name) (0 : K) = 1 := fun _ _ => Exact.pow_zero_exponent _
  rw [monomialValue, monomialValue, monomialValue,
    Finsupp.prod_of_support_subset _ Finsupp.support_add _ h0,
    Finsupp.prod_of_support_subset _ Finset.subset_union_left _ h0,
    Finsupp.prod_of_support_subset _ Finset.subset_union_right _ h0, ← Finset.prod_mul_distrib]
  refine Finset.prod_congr rfl fun name _ => ?_
  obtain ⟨m, hm, hm0⟩ := hp.whole name
  obtain ⟨n, hn, hn0⟩ := hq.whole name
  rw [Finsupp.add_apply, hm, hn, pow_add_of_whole hm0 hn0]

theorem valueAt_multiply {t u : Term K} (ht : t.Admits b) (hu : u.Admits b) :
    Laurent.valueAt b (t.multiply u).polynomial
      = Laurent.valueAt b t.polynomial * Laurent.valueAt b u.polynomial := by
  rw [Term.polynomial_multiply, Term.polynomial, Term.polynomial,
    AddMonoidAlgebra.single_mul_single, Laurent.valueAt_single, Laurent.valueAt_single,
    Laurent.valueAt_single]
  have hadd := monomialValue_add ht hu
  rw [← Term.monomial, ← Term.monomial] at hadd
  rw [hadd]
  ring

/-! ### Terms and sums -/

/-- **A term whose variables are bound has the value of the polynomial it stands for.** -/
theorem Term.value_eq {t : Term K} (ht : t.Bound b) :
    t.value b = .ok (Laurent.valueAt b t.polynomial) := by
  have key : ∀ (es : List (String × K)), (∀ e ∈ es, ∃ x, b e.1 = some x) → ∀ c : K,
      es.foldlM (Term.value.multiplyPower b) c
        = .ok (c * (es.map (fun e => Number.pow (b.number e.1) e.2)).prod) := by
    intro es
    induction es with
    | nil =>
      intro _ c
      simp
      rfl
    | cons e rest ih =>
      intro hes c
      obtain ⟨⟨x, hx⟩, hrest⟩ := List.forall_mem_cons.mp hes
      have hstep : Term.value.multiplyPower b c e = .ok (c * Number.pow (b.number e.1) e.2) := by
        rw [Term.value.multiplyPower, Bindings.number, hx]
        rfl
      rw [List.foldlM_cons, hstep]
      show rest.foldlM (Term.value.multiplyPower b) (c * Number.pow (b.number e.1) e.2) = _
      rw [ih hrest, List.map_cons, List.prod_cons, mul_assoc]
  have hbound : ∀ e ∈ t.powers.entries, ∃ x, b e.1 = some x := fun e he =>
    ht e.1 e.2 ((NameMap.mem_entries_iff _ _ _).mp he)
  rw [Term.value, key _ hbound, Term.polynomial, Laurent.valueAt_single, Term.monomial,
    monomialValue_toFinsupp]

theorem Term.value_ofPower {name : String} {x : K} (hx : b name = some x) (c exponent : K) :
    (ofPowers c [(name, exponent)]).value b = .ok (c * Number.pow x exponent) := by
  have hbound : (ofPowers c [(name, exponent)]).Bound b := by
    intro other power hget
    rw [(Prod.mk.inj (List.mem_singleton.mp (mem_of_get?_ofPowers hget))).1]
    exact ⟨x, hx⟩
  rw [Term.value_eq hbound, polynomial_ofPowers c (by simp), Laurent.valueAt_single,
    List.map_singleton, List.sum_singleton, monomialValue,
    Finsupp.prod_single_index (Exact.pow_zero_exponent _), Bindings.number, hx]
  rfl

namespace TermSum

omit [IsStrictOrderedRing K] in
theorem valueAt_eq_sum (terms : TermSum K) :
    Laurent.valueAt b (polynomial terms)
      = (terms.map fun t => Laurent.valueAt b t.polynomial).sum := by
  rw [polynomial, map_list_sum, List.map_map]
  rfl

theorem value_eq {terms : TermSum K} (h : ∀ t ∈ terms, t.Bound b) :
    value terms b = .ok (Laurent.valueAt b (polynomial terms)) := by
  have key : ∀ ts : TermSum K, (∀ t ∈ ts, t.Bound b) →
      ts.mapM (fun t => t.value b)
        = .ok (ts.map (fun t => Laurent.valueAt b t.polynomial)) := by
    intro ts
    induction ts with
    | nil => intro _; rfl
    | cons t rest ih =>
      intro hts
      obtain ⟨ht, hrest⟩ := List.forall_mem_cons.mp hts
      rw [List.mapM_cons, Term.value_eq ht, ih hrest]
      rfl
  rw [value, key terms h, valueAt_eq_sum, ← Exact.total_eq_sum]
  rfl

omit [IsStrictOrderedRing K] in
theorem valueAt_ofNumber (c : K) : Laurent.valueAt b (polynomial (ofNumber c)) = c := by
  rw [ofNumber, ofTerm, polynomial_reduce, polynomial_cons, polynomial_nil, add_zero,
    Term.valueAt_ofNumber]

theorem valueAt_products {left right : TermSum K} (hl : ∀ t ∈ left, t.Admits b)
    (hr : ∀ t ∈ right, t.Admits b) :
    Laurent.valueAt b (polynomial (products left right))
      = Laurent.valueAt b (polynomial left) * Laurent.valueAt b (polynomial right) := by
  have hrow : ∀ l : Term K, l.Admits b → ∀ ts : TermSum K, (∀ t ∈ ts, t.Admits b) →
      Laurent.valueAt b (polynomial (ts.map (fun r => l.multiply r)))
        = Laurent.valueAt b l.polynomial * Laurent.valueAt b (polynomial ts) := by
    intro l hl ts
    induction ts with
    | nil => simp
    | cons r rest ih =>
      intro hts
      obtain ⟨hr, hrest⟩ := List.forall_mem_cons.mp hts
      rw [List.map_cons, polynomial_cons, map_add, ih hrest, valueAt_multiply hl hr,
        polynomial_cons, map_add, mul_add]
  induction left with
  | nil => simp [products]
  | cons l rest ih =>
    obtain ⟨hl, hrest⟩ := List.forall_mem_cons.mp hl
    have hcons : products (l :: rest) right
        = right.map (fun r => l.multiply r) ++ products rest right := rfl
    rw [hcons, polynomial_append, map_add, hrow l hl right hr, ih hrest, polynomial_cons,
      map_add, add_mul]

omit [IsStrictOrderedRing K] in
/-- A sum without variables has the value that its coefficients add up to. -/
theorem valueAt_of_isConstant {terms : TermSum K} (h : isConstant terms = true) :
    Laurent.valueAt b (polynomial terms) = coefficientTotal terms := by
  rw [coefficientTotal, Exact.total_eq_sum, valueAt_eq_sum]
  congr 1
  refine List.map_congr_left fun t ht => ?_
  have hempty : t.powers = NameMap.empty :=
    (NameMap.isEmpty_iff _).mp (List.all_eq_true.mp h t ht)
  rw [Term.polynomial, Laurent.valueAt_single, Term.monomial, hempty, NameMap.toFinsupp_empty,
    monomialValue, Finsupp.prod_zero_index, mul_one]

end TermSum

/-! ### Expressions -/

namespace Expr

/-- A sum has the value of its polynomial, and so has its canonical form. -/
theorem ofTerms_value {terms : TermSum K} (h : ∀ t ∈ terms, t.Bound b) :
    (ofTerms terms).value b = .ok (Laurent.valueAt b (TermSum.polynomial terms)) := by
  rw [ofTerms, value, TermSum.value_eq (TermSum.reduce_bound h), TermSum.polynomial_reduce]

theorem ofTerm_value {t : Term K} (h : t.Bound b) :
    (ofTerm t).value b = .ok (Laurent.valueAt b t.polynomial) := by
  have hterms : ∀ u ∈ [t], u.Bound b := by simpa using h
  rw [ofTerm, ofTerms_value hterms, TermSum.polynomial_cons, TermSum.polynomial_nil, add_zero]

theorem ofNumber_value (c : K) : (ofNumber c).value b = .ok c := by
  have hterm : (Term.ofNumber c).Bound b := Term.Bound.normalise c fun _ _ h => by cases h
  rw [ofNumber, ofTerm_value hterm, Term.valueAt_ofNumber]

/-- Different numbers are different expressions. -/
theorem ofNumber_injective : Function.Injective (ofNumber : K → Expr K) := by
  intro x y h
  have hx : (ofNumber x).value (fun _ => none) = .ok x := ofNumber_value x
  rw [h, ofNumber_value] at hx
  exact (Except.ok.inj hx).symm

end Expr

end PolyAlgebra
