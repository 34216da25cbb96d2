/-
When an expression has no value.

A value is put together from those of all parts, so an expression with a value has one at each of
its parts (`exists_value_of_mem_parts`).  Then every variable is bound, and no quotient with values
on both sides has a zero divisor.

The other way round, a failure is passed on unchanged from the place where it arises, so it can be
traced back (`failsBy_of_value`): to a variable of the expression that is not bound, to such a
quotient, or to a call with the wrong number of arguments, which no well formed expression has.

Nothing is assumed of the numbers.  What a divisor is compared with is zero, so either zero counts
as one and an undefined number does not.
-/
import Mathlib
import PolyAlgebra.Proofs.Faults
import PolyAlgebra.Proofs.NormalForm
import PolyAlgebra.Proofs.Values

namespace PolyAlgebra

variable {α : Type} [Number α] {b : Bindings α}

/-! ### Terms -/

namespace Term

theorem multiplyPower_eq_ok_iff {product x : α} {e : String × α} :
    value.multiplyPower b product e = .ok x ↔
      ∃ y, b e.1 = some y ∧ product * Number.pow y e.2 = x := by
  rw [value.multiplyPower]
  cases b e.1 <;> simp

theorem multiplyPower_eq_error_iff {product : α} {e : String × α} {error : EvalError} :
    value.multiplyPower b product e = .error error ↔ b e.1 = none ∧ .unbound e.1 = error := by
  rw [value.multiplyPower]
  cases b e.1 <;> simp

/-- A term with a value mentions bound variables only. -/
theorem bound_of_value {t : Term α} {x : α} (h : t.value b = .ok x) : t.Bound b := by
  have key : ∀ (es : List (String × α)) (c : α),
      es.foldlM (value.multiplyPower b) c = .ok x → ∀ e ∈ es, ∃ y, b e.1 = some y := by
    intro es
    induction es with
    | nil => intro c _; exact List.forall_mem_nil _
    | cons e rest ih =>
      intro c h
      rw [List.foldlM_cons] at h
      obtain ⟨d, hd, hrest⟩ := bind_eq_ok_iff.mp h
      obtain ⟨y, hy, -⟩ := multiplyPower_eq_ok_iff.mp hd
      exact List.forall_mem_cons.mpr ⟨⟨y, hy⟩, ih d hrest⟩
  exact fun name exponent hget =>
    key _ _ h (name, exponent) ((NameMap.mem_entries_iff _ _ _).mpr hget)

/-- A term without a value mentions the variable that is reported, and it is not bound. -/
theorem value_eq_error {t : Term α} {error : EvalError} (h : t.value b = .error error) :
    ∃ name exponent, t.powers.get? name = some exponent ∧ b name = none ∧
      error = .unbound name := by
  have key : ∀ (es : List (String × α)) (c : α),
      es.foldlM (value.multiplyPower b) c = .error error →
        ∃ e ∈ es, b e.1 = none ∧ error = .unbound e.1 := by
    intro es
    induction es with
    | nil => intro c h; cases h
    | cons e rest ih =>
      intro c h
      rw [List.foldlM_cons] at h
      rcases bind_eq_error_iff.mp h with he | ⟨d, -, hrest⟩
      · obtain ⟨hnone, heq⟩ := multiplyPower_eq_error_iff.mp he
        exact ⟨e, List.mem_cons_self, hnone, heq.symm⟩
      · obtain ⟨e', he', hfails⟩ := ih d hrest
        exact ⟨e', List.mem_cons_of_mem _ he', hfails⟩
  obtain ⟨⟨name, exponent⟩, he, hfails⟩ := key _ _ h
  exact ⟨name, exponent, (NameMap.mem_entries_iff _ _ _).mp he, hfails⟩

end Term

theorem Operator.apply_eq_error_iff {op : Operator} {x y : α} {error : EvalError} :
    op.apply x y = .error error ↔ op = .divide ∧ (y == 0) = true ∧ error = .divideByZero := by
  cases op with
  | divide =>
    by_cases hzero : (y == 0) = true
    · simp [apply, hzero, eq_comm]
    · simp [apply, hzero]
  | add => simp [apply]
  | subtract => simp [apply]
  | multiply => simp [apply]
  | power => simp [apply]

namespace Expr

/-! ### Parts of an expression -/

theorem mem_variableNames_binary_iff {op : Operator} {left right : Expr α} {name : String} :
    name ∈ (Expr.binary op left right).variableNames ↔
      name ∈ left.variableNames ∨ name ∈ right.variableNames := by
  simp only [mem_variableNames_iff, leafTerms, List.mem_append, or_and_right, exists_or]

theorem mem_variableNames_call {f : Elementary} {arguments : List (Expr α)} {name : String}
    {e : Expr α} (he : e ∈ arguments) (h : name ∈ e.variableNames) :
    name ∈ (Expr.call f arguments).variableNames := by
  rw [mem_variableNames_iff] at h ⊢
  obtain ⟨t, ht, hname⟩ := h
  refine ⟨t, ?_, hname⟩
  rw [leafTerms, leafTermsAll_eq_flatMap]
  exact List.mem_flatMap.mpr ⟨e, he, ht⟩

theorem forall_parts_binary {P : Expr α → Prop} {op : Operator} {left right : Expr α} :
    (∀ s ∈ (Expr.binary op left right).parts, P s) ↔
      P (.binary op left right) ∧ (∀ s ∈ left.parts, P s) ∧ ∀ s ∈ right.parts, P s := by
  rw [parts, List.forall_mem_cons, List.forall_mem_append]

theorem mem_parts_call {f : Elementary} {arguments : List (Expr α)} {e s : Expr α}
    (he : e ∈ arguments) (hs : s ∈ e.parts) : s ∈ (Expr.call f arguments).parts := by
  rw [parts, partsAll_eq_flatMap]
  exact List.mem_cons_of_mem _ (List.mem_flatMap.mpr ⟨e, he, hs⟩)

/-- Some quotient in the expression has values on both sides, and its divisor is zero. -/
def DividesByZero (e : Expr α) (b : Bindings α) : Prop :=
  ∃ left right x y, Expr.binary .divide left right ∈ e.parts ∧ left.value b = .ok x ∧
    right.value b = .ok y ∧ (y == 0) = true

theorem DividesByZero.mono {e e' : Expr α} (h : e.DividesByZero b) (hsub : e.parts ⊆ e'.parts) :
    e'.DividesByZero b := by
  obtain ⟨left, right, x, y, hmem, hvalues⟩ := h
  exact ⟨left, right, x, y, hsub hmem, hvalues⟩

/-! ### Expressions with a value -/

theorem value_binary_eq_ok_iff {op : Operator} {left right : Expr α} {z : α} :
    (Expr.binary op left right).value b = .ok z ↔
      ∃ x y, left.value b = .ok x ∧ right.value b = .ok y ∧ op.apply x y = .ok z := by
  rw [value]
  simp only [bind_eq_ok_iff]
  constructor
  · rintro ⟨x, hx, y, hy, h⟩
    exact ⟨x, y, hx, hy, h⟩
  · rintro ⟨x, y, hx, hy, h⟩
    exact ⟨x, hx, y, hy, h⟩

theorem values_eq_mapM (es : List (Expr α)) : values es b = es.mapM fun e => e.value b := by
  induction es with
  | nil => rfl
  | cons e rest ih =>
    rw [values, List.mapM_cons, ih]
    rfl

/-- **Where an expression has a value, every part of it has.** -/
theorem exists_value_of_mem_parts {e : Expr α} {z : α} (h : e.value b = .ok z) :
    ∀ s ∈ e.parts, ∃ x, s.value b = .ok x := by
  induction e using Expr.induct generalizing z with
  | sum terms =>
    rw [parts, List.forall_mem_singleton]
    exact ⟨z, h⟩
  | binary op left right ihl ihr =>
    obtain ⟨x, y, hx, hy, -⟩ := value_binary_eq_ok_iff.mp h
    exact forall_parts_binary.mpr ⟨⟨z, h⟩, ihl hx, ihr hy⟩
  | call f arguments ih =>
    obtain ⟨xs, hxs, -⟩ := bind_eq_ok_iff.mp h
    rw [values_eq_mapM] at hxs
    refine forall_parts_call.mpr ⟨⟨z, h⟩, fun e he => ?_⟩
    obtain ⟨x, hx⟩ := exists_of_mapM_eq_ok hxs e he
    exact ih e he hx

/-- Every variable of an expression with a value is bound. -/
theorem bound_of_value {e : Expr α} {z : α} (h : e.value b = .ok z) :
    ∀ t ∈ e.leafTerms, t.Bound b := by
  induction e using Expr.induct generalizing z with
  | sum terms =>
    intro t ht
    obtain ⟨xs, hxs, -⟩ := map_eq_ok_iff.mp h
    obtain ⟨x, hx⟩ := exists_of_mapM_eq_ok hxs t ht
    exact Term.bound_of_value hx
  | binary op left right ihl ihr =>
    obtain ⟨x, y, hx, hy, -⟩ := value_binary_eq_ok_iff.mp h
    exact forall_leafTerms_binary.mpr ⟨ihl hx, ihr hy⟩
  | call f arguments ih =>
    obtain ⟨xs, hxs, -⟩ := bind_eq_ok_iff.mp h
    rw [values_eq_mapM] at hxs
    refine forall_leafTerms_call.mpr fun e he => ?_
    obtain ⟨x, hx⟩ := exists_of_mapM_eq_ok hxs e he
    exact ih e he hx

/-- An expression with a value does not divide by zero. -/
theorem not_dividesByZero_of_value {e : Expr α} {z : α} (h : e.value b = .ok z) :
    ¬ e.DividesByZero b := by
  rintro ⟨left, right, x, y, hmem, hx, hy, hzero⟩
  obtain ⟨q, hq⟩ := exists_value_of_mem_parts h _ hmem
  obtain ⟨x', y', hx', hy', happly⟩ := value_binary_eq_ok_iff.mp hq
  obtain rfl := Except.ok.inj (hy.symm.trans hy')
  rw [Operator.apply_eq_error_iff.mpr ⟨rfl, hzero, rfl⟩] at happly
  cases happly

/-! ### Expressions without a value -/

/-- Where a failure to evaluate comes from. -/
inductive FailsBy (e : Expr α) (b : Bindings α) : EvalError → Prop
  | unbound {name : String} (hname : name ∈ e.variableNames) (h : b name = none) :
      FailsBy e b (.unbound name)
  | divideByZero (h : e.DividesByZero b) : FailsBy e b .divideByZero
  | wrongCount (error : CountError) : FailsBy e b (.wrongCount error)

theorem FailsBy.mono {e e' : Expr α} {error : EvalError} (h : e.FailsBy b error)
    (hnames : ∀ name ∈ e.variableNames, name ∈ e'.variableNames)
    (hparts : e.parts ⊆ e'.parts) : e'.FailsBy b error := by
  cases h with
  | unbound hname h => exact .unbound (hnames _ hname) h
  | divideByZero h => exact .divideByZero (h.mono hparts)
  | wrongCount error => exact .wrongCount error

/-- **Every failure comes from somewhere**: it is passed on unchanged from an operand, or it
arises at the operation itself. -/
theorem failsBy_of_value {e : Expr α} {error : EvalError} (h : e.value b = .error error) :
    e.FailsBy b error := by
  induction e using Expr.induct generalizing error with
  | sum terms =>
    obtain ⟨t, ht, hfails⟩ := exists_of_mapM_eq_error (map_eq_error_iff.mp h)
    obtain ⟨name, exponent, hget, hnone, rfl⟩ := Term.value_eq_error hfails
    exact .unbound ((mem_variableNames_iff _ _).mpr ⟨t, ht, exponent, hget⟩) hnone
  | binary op left right ihl ihr =>
    rw [value] at h
    rcases bind_eq_error_iff.mp h with hl | ⟨x, hx, h⟩
    · refine (ihl hl).mono (fun _ hname => mem_variableNames_binary_iff.mpr (.inl hname)) ?_
      exact fun s hs => List.mem_cons_of_mem _ (List.mem_append_left _ hs)
    · rcases bind_eq_error_iff.mp h with hr | ⟨y, hy, h⟩
      · refine (ihr hr).mono (fun _ hname => mem_variableNames_binary_iff.mpr (.inr hname)) ?_
        exact fun s hs => List.mem_cons_of_mem _ (List.mem_append_right _ hs)
      · obtain ⟨rfl, hzero, rfl⟩ := Operator.apply_eq_error_iff.mp h
        exact .divideByZero ⟨left, right, x, y, self_mem_parts _, hx, hy, hzero⟩
  | call f arguments ih =>
    rw [value] at h
    rcases bind_eq_error_iff.mp h with hvalues | ⟨xs, -, h⟩
    · rw [values_eq_mapM] at hvalues
      obtain ⟨e, he, hfails⟩ := exists_of_mapM_eq_error hvalues
      exact (ih e he hfails).mono (fun _ => mem_variableNames_call he)
        fun _ => mem_parts_call he
    · rw [applyFunction] at h
      split at h
      · cases h
      · obtain rfl := Except.error.inj h
        exact .wrongCount _

/-- **Evaluation fails exactly when it must**, in any arithmetic.  It fails if a variable of the
expression is not bound.  If a variable is reported, it is one of the expression and is not bound.
If all are bound, evaluation reports a division by zero where some quotient has values on both
sides and its divisor is zero, and gives a value everywhere else. -/
theorem value_fails {e : Expr α} (h : e.WellFormed) (b : Bindings α) :
    ((∃ name ∈ e.variableNames, b name = none) → ∃ error, e.value b = .error error) ∧
    (∀ name, e.value b = .error (.unbound name) → name ∈ e.variableNames ∧ b name = none) ∧
    ((∀ name ∈ e.variableNames, ∃ x, b name = some x) →
      (e.DividesByZero b → e.value b = .error .divideByZero) ∧
        (¬ e.DividesByZero b → ∃ x, e.value b = .ok x)) := by
  refine ⟨?_, fun name hname => ?_, fun hbound => ?_⟩
  · rintro ⟨name, hname, hnone⟩
    cases hvalue : e.value b with
    | error error => exact ⟨error, rfl⟩
    | ok z =>
      obtain ⟨t, ht, exponent, hget⟩ := (mem_variableNames_iff e name).mp hname
      obtain ⟨x, hx⟩ := bound_of_value hvalue t ht name exponent hget
      rw [hnone] at hx
      cases hx
  · cases failsBy_of_value hname with
    | unbound hname hnone => exact ⟨hname, hnone⟩
  · have hcases : ∀ error, e.value b = .error error →
        error = .divideByZero ∧ e.DividesByZero b := by
      intro error herror
      cases failsBy_of_value herror with
      | unbound hname hnone =>
        obtain ⟨x, hx⟩ := hbound _ hname
        rw [hnone] at hx
        cases hx
      | divideByZero hzero => exact ⟨rfl, hzero⟩
      | wrongCount error => cases value_faultless h b _ herror
    cases hvalue : e.value b with
    | error error =>
      obtain ⟨rfl, hzero⟩ := hcases error hvalue
      exact ⟨fun _ => rfl, fun hnot => absurd hzero hnot⟩
    | ok z =>
      exact ⟨fun hzero => absurd hzero (not_dividesByZero_of_value hvalue), fun _ => ⟨z, rfl⟩⟩

/-- A quotient with a zero divisor, as an argument of a call and under a power. -/
theorem value_fails_nested :
    let quotient : Expr Float := .binary .divide (.sum [Term.ofName "x"]) (.sum [])
    let e : Expr Float := .call .angle [.binary .power quotient (.sum [Term.ofName "y"]),
      .call .logarithm [quotient, .sum [Term.ofName "z"]]]
    let b : Bindings Float := fun name => if name = "z" then none else some 2
    e.WellFormed ∧
    ((∃ name ∈ e.variableNames, b name = none) → ∃ error, e.value b = .error error) ∧
    (∀ name, e.value b = .error (.unbound name) → name ∈ e.variableNames ∧ b name = none) ∧
    ((∀ name ∈ e.variableNames, ∃ x, b name = some x) →
      (e.DividesByZero b → e.value b = .error .divideByZero) ∧
        (¬ e.DividesByZero b → ∃ x, e.value b = .ok x)) := by
  intro quotient e b
  have h : e.WellFormed := by
    simp [e, quotient, wellFormed_call_iff, wellFormed_binary_iff, wellFormed_sum,
      Elementary.arity]
  exact ⟨h, value_fails h b⟩

end Expr

end PolyAlgebra
