/-
What is left of a division that was carried out.

Long division turns an expression that has no value where its divisor is zero into a sum that
may have one there.  Apart from that an exact division changes no values: where the divisor is
not zero, the quotient times the divisor has the value of the dividend, and so the quotient has
the value of the division.

For this the terms of the quotient must have values of their own.  Their exponents are whole and
their variables bound, because they are made from those of the dividend and the divisor
(`divide_forall`).  That no zero is raised to a negative exponent is seen from the product: the
lowest exponents of a variable add up in it, and a divisor that is not zero has a term without
that variable (`divide_admits`).

An expression then collapses into a sum with its value or divides by zero (`collapsesOrFails`),
by induction on the expression, and the rest of simplifying follows by congruence.
-/
import Mathlib
import PolyAlgebra.Proofs.CanonicalResults
import PolyAlgebra.Proofs.ExactDivision
import PolyAlgebra.Proofs.NormalForm
import PolyAlgebra.Proofs.Simplification

namespace PolyAlgebra

/-! ### The terms of a quotient -/

namespace TermSum

section Forall

variable {α : Type} [Number α] {P : Term α → Prop} (zero : P Term.zero)
  (withCoefficient : ∀ t c, P t → P (t.withCoefficient c))
  (multiply : ∀ t u, P t → P u → P (t.multiply u))
  (divide : ∀ t u v, P t → P u → t.divide u = .ok v → P v)

include zero withCoefficient multiply

theorem subtractMultiple_forall {remainder divisor : TermSum α} {factor : Term α}
    (hremainder : ∀ t ∈ remainder, P t) (hdivisor : ∀ t ∈ divisor, P t) (hfactor : P factor) :
    ∀ t ∈ subtractMultiple remainder divisor factor, P t := by
  refine reduce_forall zero withCoefficient fun t ht => ?_
  rcases List.mem_append.mp ht with ht | ht
  · exact hremainder t ht
  · obtain ⟨u, hu, rfl⟩ := List.mem_map.mp ht
    exact withCoefficient _ _ (multiply _ _ (hdivisor u hu) hfactor)

include divide

/-- What is kept by products and quotients of terms passes to the terms that a division finds. -/
theorem quotientTerms_forall {divisor : TermSum α} {leading : Term α}
    (hdivisor : ∀ t ∈ divisor, P t) (hleading : P leading) {steps : Nat}
    {remainder quotient : TermSum α}
    (h : quotientTerms divisor leading steps remainder = .ok quotient) :
    (∀ t ∈ remainder, P t) → ∀ t ∈ quotient, P t := by
  refine quotientTerms_induction (I := fun remainder quotient =>
    (∀ t ∈ remainder, P t) → ∀ t ∈ quotient, P t) (fun _ _ => List.forall_mem_nil _) ?_ h
  intro first rest factor later hfactor ih hremainder
  have hP := divide _ _ _ (hremainder first List.mem_cons_self) hleading hfactor
  exact List.forall_mem_cons.mpr ⟨hP, ih
    (subtractMultiple_forall zero withCoefficient multiply hremainder hdivisor hP)⟩

/-- The same of a quotient in canonical form. -/
theorem divide_forall {dividend divisor quotient : TermSum α} (hdividend : ∀ t ∈ dividend, P t)
    (hdivisor : ∀ t ∈ divisor, P t) (h : TermSum.divide dividend divisor = .ok quotient) :
    ∀ t ∈ quotient, P t := by
  have hdividend := reduce_forall zero withCoefficient hdividend
  have hdivisor := reduce_forall zero withCoefficient hdivisor
  rcases divide_eq_ok_cases h with rfl | ⟨leading, hleading, terms, hterms, rfl⟩
  · exact List.forall_mem_singleton.mpr zero
  · exact reduce_forall zero withCoefficient (quotientTerms_forall zero withCoefficient multiply
      divide hdivisor (hdivisor leading hleading) hterms hdividend)

end Forall

end TermSum

variable {K : Type} [Field K] [LinearOrder K] [FloorRing K] [Unsettled K]

/-! ### Exponents of a quotient -/

/-- Every variable is bound, and every exponent is whole. -/
structure NameMap.Whole (p : NameMap K) (b : Bindings K) : Prop where
  bound : ∀ name exponent, p.get? name = some exponent → ∃ x, b name = some x
  whole : ∀ name, ∃ n : Int, p.toFinsupp name = n

section Whole

variable {b : Bindings K} {p q : NameMap K}

theorem NameMap.Admits.toWhole (h : p.Admits b) : p.Whole b :=
  ⟨h.bound, fun name => (h.whole name).imp fun _ hn => hn.1⟩

/-- Whole exponents have values if no zero has a negative one. -/
theorem NameMap.Whole.admits [IsStrictOrderedRing K] (h : p.Whole b)
    (hzero : ∀ name, b.number name = 0 → 0 ≤ p.toFinsupp name) : p.Admits b := by
  refine ⟨h.bound, fun name => ?_⟩
  obtain ⟨n, hn⟩ := h.whole name
  refine ⟨n, hn, fun hneg hname => ?_⟩
  have hle := hzero name hname
  rw [hn] at hle
  exact absurd (Int.cast_nonneg_iff.mp hle) (not_le.mpr hneg)

theorem NameMap.Whole.normalise (h : p.Whole b) (c : K) :
    (Term.normalise c p).powers.Whole b := by
  cases hc : c == 0 with
  | true =>
    rw [Term.normalise_of_isZero hc]
    exact NameMap.Admits.empty.toWhole
  | false =>
    rw [Term.normalise_of_ne hc]
    refine ⟨fun name exponent hget => ?_, fun name => ?_⟩
    · rw [NameMap.get?_filter] at hget
      exact h.bound name exponent (Option.filter_eq_some_iff.mp hget).1
    · rw [Term.toFinsupp_filter_nonzero]
      exact h.whole name

/-- Exponents may be added to each other or subtracted from each other. -/
theorem NameMap.Whole.overlay (hp : p.Whole b) (hq : q.Whole b) {f : Option K → K → K}
    (hwhole : ∀ name, ∃ n : Int, (p.overlay f q).toFinsupp name = n) :
    (p.overlay f q).Whole b := by
  refine ⟨fun name exponent hget => ?_, hwhole⟩
  rw [NameMap.get?_overlay] at hget
  cases hq' : q.get? name with
  | none =>
    rw [hq'] at hget
    exact hp.bound name exponent hget
  | some theirs => exact hq.bound name theirs hq'

theorem Term.multiply_whole {t u : Term K} (ht : t.powers.Whole b) (hu : u.powers.Whole b) :
    (t.multiply u).powers.Whole b := by
  refine (ht.overlay hu fun name => ?_).normalise _
  obtain ⟨m, hm⟩ := ht.whole name
  obtain ⟨n, hn⟩ := hu.whole name
  refine ⟨m + n, ?_⟩
  rw [toFinsupp_overlay_add, Finsupp.add_apply, hm, hn, Int.cast_add]

theorem Term.divide_whole {t u v : Term K} (ht : t.powers.Whole b) (hu : u.powers.Whole b)
    (h : t.divide u = .ok v) : v.powers.Whole b := by
  rw [divide] at h
  split at h
  · cases h
  · obtain rfl := Except.ok.inj h
    refine (ht.overlay hu fun name => ?_).normalise _
    obtain ⟨m, hm⟩ := ht.whole name
    obtain ⟨n, hn⟩ := hu.whole name
    refine ⟨m - n, ?_⟩
    rw [toFinsupp_overlay_sub, Finsupp.sub_apply, hm, hn, Int.cast_sub]

theorem TermSum.divide_whole {dividend divisor quotient : TermSum K}
    (hdividend : ∀ t ∈ dividend, t.Admits b) (hdivisor : ∀ t ∈ divisor, t.Admits b)
    (h : divide dividend divisor = .ok quotient) : ∀ t ∈ quotient, t.powers.Whole b :=
  divide_forall (P := fun t => t.powers.Whole b) NameMap.Admits.empty.toWhole
    (fun _ c ht => ht.normalise c) (fun _ _ => Term.multiply_whole)
    (fun _ _ _ => Term.divide_whole) (fun t ht => (hdividend t ht).toWhole)
    (fun t ht => (hdivisor t ht).toWhole) h

end Whole

variable [IsStrictOrderedRing K] {b : Bindings K}

/-! ### Values of a quotient -/

/-- A monomial that is not zero where a variable is has no power of it. -/
theorem NameMap.Admits.apply_eq_zero {p : NameMap K} (h : p.Admits b)
    (hne : monomialValue b p.toFinsupp ≠ 0) {name : String} (hname : b.number name = 0) :
    p.toFinsupp name = 0 := by
  by_contra hexponent
  obtain ⟨n, hn, hneg⟩ := h.whole name
  refine hne (Finset.prod_eq_zero (Finsupp.mem_support_iff.mpr hexponent) ?_)
  have hpos : n ≠ 0 := by
    rintro rfl
    exact hexponent (by simpa using hn)
  show Number.pow (b.number name) (p.toFinsupp name) = 0
  rw [hn, hname, Exact.pow_intCast, zero_zpow n hpos]

namespace TermSum

omit [IsStrictOrderedRing K] in
/-- A sum that is not zero has a term that is not. -/
theorem exists_monomialValue_ne_zero {terms : TermSum K}
    (hb : ∀ t ∈ terms, t.Admits b) (hne : Laurent.valueAt b (polynomial terms) ≠ 0) :
    ∃ t : Term K, t.Admits b ∧ (polynomial terms).coeff t.monomial ≠ 0 ∧
      monomialValue b t.monomial ≠ 0 := by
  have hcanonical := reduce_canonical terms
  rw [← polynomial_reduce, valueAt_eq_sum] at hne
  obtain ⟨x, hx, hxne⟩ := List.exists_mem_ne_zero_of_sum_ne_zero hne
  obtain ⟨t, ht, rfl⟩ := List.mem_map.mp hx
  rw [Term.polynomial, Laurent.valueAt_single] at hxne
  refine ⟨t, Expr.reduce_admits hb t ht, ?_, right_ne_zero_of_mul hxne⟩
  rw [← polynomial_reduce, coeff_eq_coefficient hcanonical.monomial_ne ht]
  exact left_ne_zero_of_mul hxne

section Divide

variable {dividend divisor quotient : TermSum K} (hdividend : ∀ t ∈ dividend, t.Admits b)
  (hdivisor : ∀ t ∈ divisor, t.Admits b) (h : divide dividend divisor = .ok quotient)
  (hexact : polynomial dividend = polynomial quotient * polynomial divisor)
  (hne : Laurent.valueAt b (polynomial divisor) ≠ 0)

include hdividend hdivisor h hexact hne

/-- **Where the divisor is not zero, the terms of an exact quotient have values.** -/
theorem divide_admits : ∀ t ∈ quotient, t.Admits b := by
  intro t ht
  refine (divide_whole hdividend hdivisor h t ht).admits fun name hname => ?_
  have hcanonical := (divide_sound h).1.canonical
  by_cases hzero : t.coefficient = 0
  · have hterm : t = Term.zero := Term.eq_zero_of_isZero (by simpa using hzero)
    rw [hterm]
    simp [Term.zero]
  · obtain ⟨u, hu, hcoeff, hvalue⟩ := exists_monomialValue_ne_zero hdivisor hne
    rw [← coeff_eq_coefficient hcanonical.monomial_ne ht] at hzero
    obtain ⟨n, hproduct, hle⟩ := Laurent.exists_coeff_mul_ne_zero_le hzero hcoeff name
    have huname : u.monomial name = 0 := hu.apply_eq_zero hvalue hname
    rw [huname, add_zero] at hle
    rw [← hexact] at hproduct
    obtain ⟨v, hv, rfl⟩ := exists_mem_of_coeff_ne_zero hproduct
    obtain ⟨k, hk, hneg⟩ := (hdividend v hv).whole name
    have hk0 : 0 ≤ k := not_lt.mp fun hlt => hneg hlt hname
    refine le_trans ?_ hle
    rw [Term.monomial, hk]
    exact Int.cast_nonneg_iff.mpr hk0

/-- **And there it has the value of the division.** -/
theorem divide_value :
    Laurent.valueAt b (polynomial quotient)
      = Laurent.valueAt b (polynomial dividend) / Laurent.valueAt b (polynomial divisor) := by
  have hadmits := divide_admits hdividend hdivisor h hexact hne
  rw [eq_div_iff hne, hexact, ← polynomial_products, valueAt_products hadmits hdivisor]

end Divide

end TermSum

/-! ### Expressions -/

namespace Expr

mutual

/-- Every division that is carried out in simplifying leaves nothing at all. -/
def ExactDivisions : Expr K → Prop
  | .sum _ => True
  | .binary op left right =>
    ExactDivisions left ∧ ExactDivisions right ∧
      (op = .divide → ∀ l r q, left.collapse = .ok l → right.collapse = .ok r →
        TermSum.divide l r = .ok q →
          TermSum.polynomial l = TermSum.polynomial q * TermSum.polynomial r)
  | .call _ arguments => AllExactDivisions arguments

/-- The same in several expressions. -/
def AllExactDivisions : List (Expr K) → Prop
  | [] => True
  | e :: rest => ExactDivisions e ∧ AllExactDivisions rest

end

omit [IsStrictOrderedRing K] in
theorem allExactDivisions_iff (es : List (Expr K)) :
    AllExactDivisions es ↔ ∀ e ∈ es, ExactDivisions e := by
  induction es with
  | nil => simp [AllExactDivisions]
  | cons e rest ih => simp [AllExactDivisions, ih]

/-- The expression divides by zero, or has the value of the sum it collapses into. -/
def CollapsesOrFails (b : Bindings K) (e : Expr K) : Prop :=
  ∀ terms, e.collapse = .ok terms → e.value b = .error .divideByZero ∨
    (∀ t ∈ terms, t.Admits b) ∧ e.value b = .ok (Laurent.valueAt b (TermSum.polynomial terms))

/-- One step, for all operators: only a division by zero has no value. -/
theorem combine_value_or_fails {op : Operator} {left right terms : TermSum K}
    (hl : ∀ t ∈ left, t.Admits b) (hr : ∀ t ∈ right, t.Admits b)
    (h : TermSum.combine op left right = .ok terms)
    (hexact : op = .divide → TermSum.polynomial left
      = TermSum.polynomial terms * TermSum.polynomial right) :
    op.apply (Laurent.valueAt b (TermSum.polynomial left))
        (Laurent.valueAt b (TermSum.polynomial right)) = .error .divideByZero ∨
      (∀ t ∈ terms, t.Admits b) ∧
        op.apply (Laurent.valueAt b (TermSum.polynomial left))
            (Laurent.valueAt b (TermSum.polynomial right))
          = .ok (Laurent.valueAt b (TermSum.polynomial terms)) := by
  by_cases hop : op = .divide
  · subst hop
    have hexact := hexact rfl
    by_cases hzero : Laurent.valueAt b (TermSum.polynomial right) = 0
    · left
      rw [Operator.apply, if_pos (by simpa using hzero)]
    · right
      refine ⟨TermSum.divide_admits hl hr h hexact hzero, ?_⟩
      rw [Operator.apply, if_neg (by simpa using hzero),
        TermSum.divide_value hl hr h hexact hzero]
  · exact Or.inr (combine_value hop hl hr h)

omit [IsStrictOrderedRing K] in
theorem values_of_constants_or_fails {arguments : List (Expr K)}
    (h : ∀ e ∈ arguments, CollapsesOrFails b e) {numbers : List K}
    (hn : constants arguments = .ok numbers) :
    values arguments b = .error .divideByZero ∨ values arguments b = .ok numbers := by
  induction arguments generalizing numbers with
  | nil =>
    obtain rfl := Except.ok.inj hn
    exact Or.inr rfl
  | cons e rest ih =>
    obtain ⟨he, hrest⟩ := List.forall_mem_cons.mp h
    obtain ⟨terms, others, hterms, hconstant, hothers, rfl⟩ := constants_cons_eq_ok_iff.mp hn
    rw [values]
    rcases he terms hterms with hfails | ⟨-, hvalue⟩
    · rw [hfails]
      exact Or.inl rfl
    · rw [hvalue, TermSum.valueAt_of_isConstant hconstant]
      rcases ih hrest hothers with hfails | hvalues
      · rw [hfails]
        exact Or.inl rfl
      · rw [hvalues]
        exact Or.inr rfl

/-- **An expression whose divisions are exact collapses into a sum with its value, or divides by
zero.** -/
theorem collapsesOrFails {e : Expr K} (hexact : e.ExactDivisions)
    (hb : ∀ t ∈ e.leafTerms, t.Admits b) : CollapsesOrFails b e := by
  induction e using Expr.induct with
  | sum raw =>
    rintro _ ⟨⟩
    refine Or.inr ⟨reduce_admits hb, ?_⟩
    rw [TermSum.polynomial_reduce]
    exact TermSum.value_eq fun t ht => (hb t ht).bound
  | binary op left right ihl ihr =>
    intro terms h
    obtain ⟨-, l, r, hl, hr, hcombine⟩ := collapse_binary_eq_ok_iff.mp h
    obtain ⟨hbl, hbr⟩ := forall_leafTerms_binary.mp hb
    obtain ⟨hel, her, hdivision⟩ := hexact
    rw [value]
    rcases ihl hel hbl l hl with hfails | ⟨hla, hlv⟩
    · rw [hfails]
      exact Or.inl rfl
    rcases ihr her hbr r hr with hfails | ⟨hra, hrv⟩
    · rw [hlv, hfails]
      exact Or.inl rfl
    rw [hlv, hrv]
    refine combine_value_or_fails hla hra hcombine fun hop => ?_
    subst hop
    exact hdivision rfl l r terms hl hr hcombine
  | call f arguments ih =>
    have hball := forall_leafTerms_call.mp hb
    have heall := (allExactDivisions_iff arguments).mp hexact
    intro terms h
    obtain ⟨numbers, x, hnumbers, hx, rfl⟩ := collapse_call_eq_ok_iff.mp h
    rw [value]
    rcases values_of_constants_or_fails
      (fun e he => ih e he (heall e he) (hball e he)) hnumbers with hfails | hvalues
    · rw [hfails]
      exact Or.inl rfl
    · have hterm : (Term.ofNumber x).Admits b := Term.Admits.normalise x NameMap.Admits.empty
      refine Or.inr ⟨reduce_admits (by simpa using hterm), ?_⟩
      rw [hvalues]
      show applyFunction f numbers = _
      rw [applyFunction, hx, TermSum.valueAt_ofNumber]

theorem value_of_collapse_or_fails {e : Expr K} (hexact : e.ExactDivisions)
    (hb : ∀ t ∈ e.leafTerms, t.Admits b) {terms : TermSum K}
    (h : e.collapse = .ok terms) :
    e.value b = .error .divideByZero ∨ (Expr.sum terms).value b = e.value b := by
  refine (collapsesOrFails hexact hb terms h).imp_right fun hcollapse => ?_
  rw [hcollapse.2, value, TermSum.value_eq fun t ht => (hcollapse.1 t ht).bound]

omit [IsStrictOrderedRing K] in
theorem values_map_or_fails {arguments : List (Expr K)} {f : Expr K → Expr K}
    (h : ∀ e ∈ arguments, e.value b = .error .divideByZero ∨ (f e).value b = e.value b) :
    values arguments b = .error .divideByZero ∨
      values (arguments.map f) b = values arguments b := by
  induction arguments with
  | nil => exact Or.inr rfl
  | cons e rest ih =>
    obtain ⟨he, hrest⟩ := List.forall_mem_cons.mp h
    rw [List.map_cons, values, values]
    rcases he with hfails | hvalue
    · rw [hfails]
      exact Or.inl rfl
    rw [hvalue]
    cases hfirst : e.value b with
    | error error => exact Or.inr rfl
    | ok x =>
      rcases ih hrest with hfails | hvalues
      · rw [hfails]
        exact Or.inl rfl
      · rw [hvalues]
        exact Or.inr rfl

/-- **Simplifying changes the value only where the expression divides by zero**, as long as the
divisions that it carries out are exact. -/
theorem simplify_value_or_fails {e : Expr K} (hexact : e.ExactDivisions)
    (hb : ∀ t ∈ e.leafTerms, t.Admits b) :
    e.value b = .error .divideByZero ∨ e.simplify.value b = e.value b := by
  induction e using Expr.induct with
  | sum raw => exact value_of_collapse_or_fails hexact hb rfl
  | binary op left right ihl ihr =>
    cases h : (Expr.binary op left right).collapse with
    | ok terms =>
      rw [simplify_of_collapse h]
      exact value_of_collapse_or_fails hexact hb h
    | error obstacle =>
      obtain ⟨hbl, hbr⟩ := forall_leafTerms_binary.mp hb
      obtain ⟨hel, her, -⟩ := hexact
      rw [simplify_binary_of_error h, value, value]
      rcases ihl hel hbl with hfails | hvalue
      · rw [hfails]
        exact Or.inl rfl
      rw [hvalue]
      cases hl : left.value b with
      | error error => exact Or.inr rfl
      | ok x =>
        rcases ihr her hbr with hfails | hvalue
        · rw [hfails]
          exact Or.inl rfl
        · rw [hvalue]
          exact Or.inr rfl
  | call f arguments ih =>
    cases h : (Expr.call f arguments).collapse with
    | ok terms =>
      rw [simplify_of_collapse h]
      exact value_of_collapse_or_fails hexact hb h
    | error obstacle =>
      have hball := forall_leafTerms_call.mp hb
      have heall := (allExactDivisions_iff arguments).mp hexact
      rw [simplify_call_of_error h, value, value]
      rcases values_map_or_fails
        (fun e he => ih e he (heall e he) (hball e he)) with hfails | hvalues
      · rw [hfails]
        exact Or.inl rfl
      · rw [hvalues]
        exact Or.inr rfl

end Expr

end PolyAlgebra
