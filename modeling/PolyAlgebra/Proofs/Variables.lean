/-
No operation invents a variable, and none keeps one that it has to remove.

Which variables an expression has is a matter of the terms at its leaves, so everything is said
of terms first: a term is `Within` a set of names if it mentions no others.  A term is only ever
built by `normalise`, from powers that are taken from terms at hand.  So being within a set
passes through the operations on terms, from there to sums, and from there to expressions, where
the set is that of the variables to begin with.

Three operations remove variables.  Substituting removes those that are bound, and integrating
between bounds and composing each remove one, so they lead into a smaller set.

The numbers do not matter anywhere, and may be undefined.
-/
import Mathlib
import PolyAlgebra.Calculus
import PolyAlgebra.Proofs.Cancellation
import PolyAlgebra.Proofs.Composition
import PolyAlgebra.Proofs.Preservation

namespace PolyAlgebra

variable {α : Type} [Number α] {S : Set String}

/-! ### Terms -/

namespace Term

variable {t u : Term α}

theorem within_withCoefficient (ht : t.Within S) (c : α) : (t.withCoefficient c).Within S :=
  within_normalise c ht

theorem within_ofNumber (x : α) : (ofNumber x).Within S :=
  within_normalise x fun _ _ h => by cases h

theorem within_negate (ht : t.Within S) : t.negate.Within S := within_withCoefficient ht _

/-- Laying powers over others brings only their own variables along. -/
theorem within_normalise_overlay (c : α) (f : Option α → α → α) (ht : t.Within S)
    (hu : u.Within S) : (normalise c (t.powers.overlay f u.powers)).Within S := by
  refine within_normalise c fun name exponent hget => ?_
  rw [NameMap.get?_overlay] at hget
  cases htheirs : u.powers.get? name with
  | some theirs => exact hu name theirs htheirs
  | none =>
    rw [htheirs] at hget
    exact ht name exponent hget

theorem within_multiply (ht : t.Within S) (hu : u.Within S) : (t.multiply u).Within S :=
  within_normalise_overlay _ _ ht hu

theorem within_divide (ht : t.Within S) (hu : u.Within S) {quotient : Term α}
    (h : t.divide u = .ok quotient) : quotient.Within S := by
  rw [divide] at h
  split at h
  · cases h
  · obtain rfl := Except.ok.inj h
    exact within_normalise_overlay _ _ ht hu

/-- Filing an exponent under a name brings that name along. -/
theorem within_normalise_insert (c : α) (ht : t.Within S) {name : String} (hname : name ∈ S)
    (exponent : α) : (normalise c (t.powers.insert name exponent)).Within S := by
  refine within_normalise c fun other value hget => ?_
  rw [NameMap.get?_insert] at hget
  split at hget
  · rename_i hother
    exact hother ▸ hname
  · exact ht other value hget

/-- A variable is differentiated by only where it occurs. -/
theorem within_differentiate (ht : t.Within S) (name : String) :
    (t.differentiate name).Within S := by
  rw [differentiate]
  split
  · rename_i exponent hget
    split
    · exact within_zero
    · exact within_normalise_insert _ ht (ht name exponent hget) _
  · exact within_zero

theorem within_integrate (ht : t.Within S) {name : String} (hname : name ∈ S) {integral : Term α}
    (h : t.integrate name = .ok integral) : integral.Within S := by
  rw [integrate] at h
  split at h
  · cases h
  · obtain rfl := Except.ok.inj h
    exact within_normalise_insert _ ht hname _

/-- What is left of a term mentions only variables that are not bound. -/
theorem within_partiallyEvaluate (ht : t.Within S) (b : Bindings α) :
    (t.partiallyEvaluate b).Within {name ∈ S | b name = none} := by
  refine within_normalise _ fun name exponent hget => ?_
  rw [NameMap.get?_filter] at hget
  obtain ⟨hget, hopen⟩ := Option.filter_eq_some_iff.mp hget
  exact ⟨ht name exponent hget, Option.isNone_iff_eq_none.mp hopen⟩

end Term

/-! ### Sums -/

namespace TermSum

variable {left right terms : TermSum α}

theorem within_negate (h : ∀ t ∈ terms, t.Within S) : ∀ t ∈ negate terms, t.Within S := by
  intro t ht
  obtain ⟨u, hu, rfl⟩ := List.mem_map.mp ht
  exact Term.within_negate (h u hu)

theorem within_products (hl : ∀ t ∈ left, t.Within S) (hr : ∀ t ∈ right, t.Within S) :
    ∀ t ∈ products left right, t.Within S := by
  intro t ht
  obtain ⟨u, hu, ht⟩ := List.mem_flatMap.mp ht
  obtain ⟨v, hv, rfl⟩ := List.mem_map.mp ht
  exact Term.within_multiply (hl u hu) (hr v hv)

/-- **Whichever operator combines two sums, the result mentions only their variables.** -/
theorem within_combine {op : Operator} (hl : ∀ t ∈ left, t.Within S)
    (hr : ∀ t ∈ right, t.Within S) (h : combine op left right = .ok terms) :
    ∀ t ∈ terms, t.Within S := by
  cases op with
  | add =>
    obtain rfl := Except.ok.inj h
    exact reduce_within (List.forall_mem_append.mpr ⟨hl, hr⟩)
  | subtract =>
    obtain rfl := Except.ok.inj h
    exact reduce_within (List.forall_mem_append.mpr ⟨hl, within_negate hr⟩)
  | multiply =>
    obtain rfl := Except.ok.inj h
    exact reduce_within (within_products hl hr)
  | divide =>
    have hmultiply : ∀ t u : Term α, t.Within S → u.Within S → (t.multiply u).Within S :=
      fun _ _ => Term.within_multiply
    have hdivide : ∀ t u q : Term α, t.Within S → u.Within S → t.divide u = .ok q → q.Within S :=
      fun _ _ _ ht hu => Term.within_divide ht hu
    exact divide_forall Term.within_zero (fun _ c ht => Term.within_withCoefficient ht c)
      hmultiply hdivide hl hr h
  | power => cases h

end TermSum

/-! ### Expressions -/

namespace Expr

/-- No term of the expression mentions a variable outside of the set. -/
def Within (e : Expr α) (S : Set String) : Prop := ∀ t ∈ e.leafTerms, t.Within S

theorem within_iff {e : Expr α} : e.Within S ↔ ∀ name ∈ e.variableNames, name ∈ S := by
  simp only [mem_variableNames_iff]
  constructor
  · intro h name hname
    obtain ⟨t, ht, exponent, hget⟩ := hname
    exact h t ht name exponent hget
  · intro h t ht name exponent hget
    exact h name ⟨t, ht, exponent, hget⟩

/-- An expression is within its own variables. -/
theorem within_variableNames (e : Expr α) : e.Within {name | name ∈ e.variableNames} :=
  within_iff.mpr fun _ h => h

theorem Within.mono {e : Expr α} {T : Set String} (h : e.Within S) (hsub : S ⊆ T) : e.Within T :=
  fun t ht => (h t ht).mono hsub

theorem within_binary_iff {op : Operator} {left right : Expr α} :
    (Expr.binary op left right).Within S ↔ left.Within S ∧ right.Within S :=
  forall_leafTerms_binary

theorem within_call_iff {f : Elementary} {arguments : List (Expr α)} :
    (Expr.call f arguments).Within S ↔ ∀ e ∈ arguments, e.Within S :=
  forall_leafTerms_call

theorem within_ofTerms {terms : TermSum α} (h : ∀ t ∈ terms, t.Within S) :
    (ofTerms terms).Within S := TermSum.reduce_within h

/-- Numbers mention no variable. -/
theorem within_ofNumber (x : α) : (ofNumber x).Within S :=
  within_ofTerms (List.forall_mem_singleton.mpr (Term.within_ofNumber x))

/-! ### Simplifying -/

theorem collapse_within {e : Expr α} (h : e.Within S) {terms : TermSum α}
    (hterms : e.collapse = .ok terms) : ∀ t ∈ terms, t.Within S := by
  induction e using Expr.induct generalizing terms with
  | sum raw =>
    obtain rfl := Except.ok.inj hterms
    exact TermSum.reduce_within h
  | binary op left right ihl ihr =>
    obtain ⟨hl, hr⟩ := within_binary_iff.mp h
    obtain ⟨-, l, r, hcl, hcr, hcombine⟩ := collapse_binary_eq_ok_iff.mp hterms
    exact TermSum.within_combine (ihl hl hcl) (ihr hr hcr) hcombine
  | call f arguments _ =>
    obtain ⟨numbers, x, -, -, rfl⟩ := collapse_call_eq_ok_iff.mp hterms
    exact within_ofNumber x

/-- What is within a set of variables passes that on. -/
theorem establishes_within : Establishes (α := α) (·.Within S) (·.Within S) where
  weaken h := h
  operands := within_binary_iff
  binary hl hr := within_binary_iff.mpr ⟨hl, hr⟩
  call_map hcall hmap := by
    rw [within_call_iff, List.forall_mem_map]
    exact fun e he => hmap e he (within_call_iff.mp hcall e he)
  collapse h hterms := collapse_within h hterms
  zero := List.forall_mem_singleton.mpr Term.within_zero

/-- **Simplifying brings no variable in.** -/
theorem simplify_within {e : Expr α} (h : e.Within S) : e.simplify.Within S :=
  establishes_within.simplify h

/-! ### Derivatives -/

/-- **Differentiating brings no variable in**, not even the one it is with respect to. -/
theorem differentiate_within {e d : Expr α} (h : e.Within S) {name : String}
    (hd : e.differentiate name = .ok d) : d.Within S := by
  refine establishes_within.differentiate (fun terms hterms => within_ofTerms fun t ht => ?_) h hd
  obtain ⟨u, hu, rfl⟩ := List.mem_map.mp ht
  exact Term.within_differentiate (hterms u hu) name

/-! ### Antiderivatives -/

theorem integrateTerms_within {terms : TermSum α} (h : ∀ t ∈ terms, t.Within S) {name : String}
    (hname : name ∈ S) {F : Expr α} (hF : integrateTerms terms name = .ok F) : F.Within S := by
  rw [integrateTerms] at hF
  split at hF
  · rename_i integrals hintegrals
    obtain rfl := Except.ok.inj hF
    refine within_ofTerms fun u hu => ?_
    obtain ⟨t, ht, htu⟩ := exists_of_mem_mapM hintegrals hu
    exact Term.within_integrate (h t ht) hname htu
  · cases hF

/-- **Integrating brings in the variable it is with respect to**, and no other. -/
theorem integrate_within {e F : Expr α} (h : e.Within S) {name : String} (hname : name ∈ S)
    (hF : e.integrate name = .ok F) : F.Within S := by
  induction e using Expr.induct generalizing F with
  | sum terms => exact integrateTerms_within h hname hF
  | binary op left right ihl ihr =>
    obtain ⟨hl, hr⟩ := within_binary_iff.mp h
    cases op with
    | add =>
      obtain ⟨l, hFl, hF⟩ := bind_eq_ok_iff.mp hF
      obtain ⟨r, hFr, hF⟩ := bind_eq_ok_iff.mp hF
      obtain rfl := Except.ok.inj hF
      exact establishes_within.simplify_binary .add (ihl hl hFl) (ihr hr hFr)
    | subtract =>
      obtain ⟨l, hFl, hF⟩ := bind_eq_ok_iff.mp hF
      obtain ⟨r, hFr, hF⟩ := bind_eq_ok_iff.mp hF
      obtain rfl := Except.ok.inj hF
      exact establishes_within.simplify_binary .subtract (ihl hl hFl) (ihr hr hFr)
    | multiply =>
      rw [integrate] at hF
      split at hF
      · rename_i terms hterms
        exact integrateTerms_within (collapse_within h hterms) hname hF
      · cases hF
    | divide => cases hF
    | power => cases hF
  | call f arguments _ => cases hF

theorem integrate_within_insert {e F : Expr α} (h : e.Within S) {name : String}
    (hF : e.integrate name = .ok F) : F.Within (insert name S) :=
  integrate_within (h.mono (Set.subset_insert name S)) (Set.mem_insert name S) hF

/-! ### Putting something in place of variables -/

/-- **Substituting removes the variables that are bound.** -/
theorem substitute_within {e : Expr α} (h : e.Within S) (b : Bindings α) :
    (e.substitute b).Within {name ∈ S | b name = none} := by
  induction e using Expr.induct with
  | sum terms =>
    refine within_ofTerms fun u hu => ?_
    obtain ⟨t, ht, rfl⟩ := List.mem_map.mp hu
    exact Term.within_partiallyEvaluate (h t ht) b
  | binary op left right ihl ihr =>
    obtain ⟨hl, hr⟩ := within_binary_iff.mp h
    exact within_binary_iff.mpr ⟨ihl hl, ihr hr⟩
  | call f arguments ih =>
    rw [substitute, substituteAll_eq_map, within_call_iff, List.forall_mem_map]
    exact fun e he => ih e he (within_call_iff.mp h e he)

omit [Number α] in
theorem only_eq_none_iff {name other : String} {x : α} :
    Bindings.only name x other = none ↔ other ≠ name := by
  simp [Bindings.only]

/-- **Integrating between bounds removes the variable again.** -/
theorem integrateOver_within {e r : Expr α} (h : e.Within S) {name : String} {start stop : α}
    (hr : e.integrateOver name start stop = .ok r) : r.Within (S \ {name}) := by
  obtain ⟨F, hF, hr⟩ := bind_eq_ok_iff.mp hr
  obtain rfl := Except.ok.inj hr
  have hwithin := integrate_within_insert h hF
  have hvalue : ∀ x : α, (F.substitute (Bindings.only name x)).Within (S \ {name}) := by
    intro x
    refine (substitute_within hwithin (Bindings.only name x)).mono fun other hother => ?_
    have hne := only_eq_none_iff.mp hother.2
    exact ⟨hother.1.resolve_left hne, hne⟩
  exact establishes_within.simplify_binary .subtract (hvalue stop) (hvalue start)

/-- Without its power a term does not mention the variable any more. -/
theorem withoutPower_within {t : Term α} (h : t.Within S) (x : String) :
    (withoutPower t x).Within (S \ {x}) :=
  (Term.within_partiallyEvaluate h (Bindings.only x 1)).mono fun _ hother =>
    ⟨hother.1, only_eq_none_iff.mp hother.2⟩

/-- A term mentions exactly the variables that it touches. -/
theorem within_of_not_touches {t : Term α} (h : t.Within S) {x : String}
    (hx : touches x t = false) : t.Within (S \ {x}) := by
  intro name exponent hget
  refine ⟨h name exponent hget, ?_⟩
  rintro rfl
  have hzero : (exponent == 0) = true := by
    rw [touches, Term.exponent, hget, Option.getD_some, Bool.not_eq_false'] at hx
    exact hx
  rw [t.normalised.exponents name exponent hget] at hzero
  cases hzero

/-- **Composing puts the variables of the replacement in place of the variable.** -/
theorem compose_within {f g : Expr α} {T : Set String} (hf : f.Within S)
    (hg : g.Within T) (x : String) :
    (f.compose x g).Within (S \ {x} ∪ T) := by
  have huntouched : ∀ t ∈ f.leafTerms, touches x t = false → t.Within (S \ {x} ∪ T) :=
    fun t ht hx => (within_of_not_touches (hf t ht) hx).mono Set.subset_union_left
  have htouched : ∀ t ∈ f.leafTerms, (withoutPower t x).Within (S \ {x} ∪ T) :=
    fun t ht => (withoutPower_within (hf t ht) x).mono Set.subset_union_left
  exact compose_forall Term.within_zero (fun _ c ht => Term.within_withCoefficient ht c)
    Term.within_ofNumber (fun t ht => (hg t ht).mono Set.subset_union_right) huntouched htouched

/-! ### All operations -/

/-- **No operation invents or leaks a variable**, whatever the numbers do.  Simplifying and
differentiating give variables of the expression, and integrating adds the variable it is with
respect to.  That variable is gone from an integral between bounds, the bound variables are gone
after substituting, and after composing the variable that was replaced occurs only where the
replacement mentions it. -/
theorem variableNames_subset (e : Expr α) :
    (∀ y ∈ e.simplify.variableNames, y ∈ e.variableNames) ∧
    (∀ name d, e.differentiate name = .ok d → ∀ y ∈ d.variableNames, y ∈ e.variableNames) ∧
    (∀ name F, e.integrate name = .ok F →
      ∀ y ∈ F.variableNames, y ∈ e.variableNames ∨ y = name) ∧
    (∀ name start stop r, e.integrateOver name start stop = .ok r →
      ∀ y ∈ r.variableNames, y ∈ e.variableNames ∧ y ≠ name) ∧
    (∀ b : Bindings α, ∀ y ∈ (e.substitute b).variableNames,
      y ∈ e.variableNames ∧ b y = none) ∧
    ∀ (g : Expr α) (x : String), ∀ y ∈ (e.compose x g).variableNames,
      y ∈ e.variableNames ∧ y ≠ x ∨ y ∈ g.variableNames := by
  have he := within_variableNames e
  refine ⟨within_iff.mp (simplify_within he), ?_, ?_, ?_, ?_, ?_⟩
  · exact fun name d hd => within_iff.mp (differentiate_within he hd)
  · intro name F hF y hy
    have hwithin := integrate_within (he.mono (Set.subset_insert name _))
      (Set.mem_insert name _) hF
    exact (within_iff.mp hwithin y hy).symm
  · exact fun name start stop r hr => within_iff.mp (integrateOver_within he hr)
  · exact fun b => within_iff.mp (substitute_within he b)
  · exact fun g x => within_iff.mp (compose_within he (within_variableNames g) x)

end Expr

end PolyAlgebra
