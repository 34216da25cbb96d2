/-
No promise is broken on the way.

Two operations rely on a promise: a function is applied to as many numbers as it takes, and a term
is divided by one that is not zero.  A broken promise has an error of its own, a `Fault`.

Collapsing and evaluating a well formed expression may fail but never causes a fault, in whatever
arithmetic zero is near zero.  There are only two reasons for that.  Folding a call collects one
number for each argument.  And the first term of a reduced divisor is not zero: reducing leaves a
zero term only as the whole of a sum, and that sum counts as zero, so the division is refused
before it begins (`leading_nonzero`).
-/
import Mathlib
import PolyAlgebra.Double.Arithmetic
import PolyAlgebra.Proofs.Tolerance
import PolyAlgebra.Proofs.WellFormed

namespace PolyAlgebra

variable {α : Type} [Number α]

/-- A promise that was broken. -/
inductive Fault (α : Type) [Number α] where
  /-- A function was applied to the wrong number of arguments. -/
  | count (error : CountError)
  /-- A term was divided by a zero term. -/
  | term (error : TermError α)

/-- The broken promise behind an expression that does not collapse. -/
def Obstacle.fault? : Obstacle α → Option (Fault α)
  | .wrongCount error => some (.count error)
  | .term error => some (.term error)
  | .power => none
  | .variableArgument => none
  | .zeroDivisor => none
  | .lowDegree => none
  | .remainder => none
  | .stepLimit => none

/-- The broken promise behind an expression without a value. -/
def EvalError.fault? : EvalError → Option (Fault α)
  | .wrongCount error => some (.count error)
  | .unbound _ => none
  | .divideByZero => none

/-! ### Computations that may fail -/

section Failing

variable {β γ ε : Type} {fault? : ε → Option (Fault α)}

/-- If the computation fails, no promise was broken. -/
def Faultless (fault? : ε → Option (Fault α)) (x : Except ε β) : Prop :=
  ∀ error, x = .error error → fault? error = none

theorem faultless_ok (b : β) : Faultless fault? (.ok b) := fun _ h => by cases h

theorem faultless_error {error : ε} (h : fault? error = none) :
    Faultless fault? (.error error : Except ε β) := by
  rintro _ ⟨⟩
  exact h

theorem Faultless.bind {x : Except ε β} {f : β → Except ε γ} (hx : Faultless fault? x)
    (hf : ∀ b, x = .ok b → Faultless fault? (f b)) : Faultless fault? (x >>= f) := by
  cases x with
  | error error => exact fun _ h => hx _ (by cases h; rfl)
  | ok b => exact hf b rfl

theorem Faultless.map {x : Except ε β} (hx : Faultless fault? x) (f : β → γ) :
    Faultless fault? (f <$> x) := by
  cases x with
  | error error => exact fun _ h => hx _ (by cases h; rfl)
  | ok b => exact faultless_ok _

theorem faultless_mapM {f : β → Except ε γ} {xs : List β}
    (h : ∀ x ∈ xs, Faultless fault? (f x)) : Faultless fault? (xs.mapM f) := by
  induction xs with
  | nil => exact faultless_ok _
  | cons x rest ih =>
    obtain ⟨hx, hrest⟩ := List.forall_mem_cons.mp h
    rw [List.mapM_cons]
    exact hx.bind fun _ _ => (ih hrest).bind fun _ _ => faultless_ok _

theorem faultless_foldlM {f : γ → β → Except ε γ} (h : ∀ c x, Faultless fault? (f c x))
    (xs : List β) (start : γ) : Faultless fault? (xs.foldlM f start) := by
  induction xs generalizing start with
  | nil => exact faultless_ok _
  | cons x rest ih =>
    rw [List.foldlM_cons]
    exact (h start x).bind fun next _ => ih next

end Failing

/-! ### Division -/

/-- Zero counts as zero. -/
class ZeroIsNear (α : Type) [Number α] : Prop where
  isNear_zero : Number.isNear (0 : α) 0 = true

instance instZeroIsNearExact {K : Type} [Field K] [LinearOrder K] [FloorRing K] [Unsettled K]
    [IsStrictOrderedRing K] : ZeroIsNear K where
  isNear_zero := (Exact.isNear_zero_iff 0).mpr (by norm_num)

instance instZeroIsNearFloat : ZeroIsNear Float where
  isNear_zero := by decide +kernel

namespace TermSum

theorem mergeTerm_nonzero {t : Term α} (ht : t.isZero = false) {sum : TermSum α}
    (h : ∀ s ∈ sum, s.isZero = false) : ∀ s ∈ mergeTerm t sum, s.isZero = false := by
  induction sum with
  | nil => exact List.forall_mem_singleton.mpr ht
  | cons s rest ih =>
    obtain ⟨hs, hrest⟩ := List.forall_mem_cons.mp h
    rw [mergeTerm]
    split
    · dsimp only
      split
      · exact hrest
      · rename_i hmerged
        exact List.forall_mem_cons.mpr ⟨by simpa using hmerged, hrest⟩
    · exact List.forall_mem_cons.mpr ⟨hs, ih hrest⟩

/-- Zeros are dropped in merging. -/
theorem merge_nonzero (terms : TermSum α) : ∀ t ∈ merge terms, t.isZero = false := by
  refine merge_induction (I := fun sum => ∀ t ∈ sum, t.isZero = false) (List.forall_mem_nil _)
    fun sum hsum t _ => ?_
  rw [mergeStep]
  split
  · exact hsum
  · rename_i ht
    exact mergeTerm_nonzero (by simpa using ht) hsum

/-- A zero term is left in a reduced sum only as the whole of it. -/
theorem reduce_eq_zero_or_nonzero (terms : TermSum α) :
    reduce terms = [Term.zero] ∨ ∀ t ∈ reduce terms, t.isZero = false := by
  cases hm : merge terms with
  | nil =>
    left
    rw [reduce, hm]
    exact List.perm_singleton.mp (stableSort_perm _ _)
  | cons s rest =>
    right
    intro t ht
    have hmem : t ∈ orZero (merge terms) := (stableSort_perm _ _).mem_iff.mp ht
    rw [hm, orZero, ← hm] at hmem
    exact merge_nonzero terms t hmem

/-- **A reduced divisor that does not count as zero does not begin with zero.** -/
theorem leading_nonzero [ZeroIsNear α] {divisor rest : TermSum α} {leading : Term α}
    (h : reduce divisor = leading :: rest) (hzero : ¬ isZero (leading :: rest) = true) :
    leading.isZero = false := by
  rcases reduce_eq_zero_or_nonzero divisor with heq | hnonzero
  · have hcounts : isZero [(Term.zero : Term α)] = true := by
      have hnear := ZeroIsNear.isNear_zero (α := α)
      simp [isZero, Term.approxEq, Term.zero, hnear, NameMap.empty, NameMap.names]
    rw [← h, heq] at hzero
    exact absurd hcounts hzero
  · exact hnonzero leading (h ▸ List.mem_cons_self)

theorem quotientTerms_faultless {divisor : TermSum α} {leading : Term α}
    (h : leading.isZero = false) (steps : Nat) (remainder : TermSum α) :
    Faultless Obstacle.fault? (quotientTerms divisor leading steps remainder) := by
  induction steps generalizing remainder with
  | zero =>
    rw [quotientTerms]
    split
    · exact faultless_error rfl
    · split
      · exact faultless_ok _
      · exact faultless_error rfl
  | succ steps ih =>
    rw [quotientTerms.eq_def]
    split
    · cases remainder with
      | nil => exact faultless_ok _
      | cons first rest =>
        dsimp only
        rw [Term.divide, h]
        exact (ih _).map _
    · split
      · exact faultless_ok _
      · exact faultless_error rfl

/-- **No term is ever divided by zero.** -/
theorem divide_faultless [ZeroIsNear α] (dividend divisor : TermSum α) :
    Faultless Obstacle.fault? (divide dividend divisor) := by
  rw [divide]
  split
  · exact faultless_error rfl
  · rename_i leading rest hfirst
    split
    · exact faultless_error rfl
    · rename_i hzero
      split
      · exact faultless_ok _
      · split
        · exact faultless_error rfl
        · rw [hfirst] at hzero
          exact (quotientTerms_faultless (leading_nonzero hfirst hzero) _ _).map _

theorem combine_faultless [ZeroIsNear α] (op : Operator) (left right : TermSum α) :
    Faultless Obstacle.fault? (combine op left right) := by
  cases op with
  | add => exact faultless_ok _
  | subtract => exact faultless_ok _
  | multiply => exact faultless_ok _
  | divide => exact divide_faultless left right
  | power => exact faultless_error rfl

end TermSum

namespace Expr

/-! ### Collapsing and evaluating -/

theorem constants_length {arguments : List (Expr α)} {numbers : List α}
    (h : constants arguments = .ok numbers) : numbers.length = arguments.length := by
  induction arguments generalizing numbers with
  | nil =>
    obtain rfl := Except.ok.inj h
    rfl
  | cons e rest ih =>
    obtain ⟨terms, others, -, -, hothers, rfl⟩ := constants_cons_eq_ok_iff.mp h
    rw [List.length_cons, List.length_cons, ih hothers]

theorem values_length {es : List (Expr α)} {b : Bindings α} {numbers : List α}
    (h : values es b = .ok numbers) : numbers.length = es.length := by
  induction es generalizing numbers with
  | nil =>
    obtain rfl := Except.ok.inj h
    rfl
  | cons e rest ih =>
    obtain ⟨first, -, h⟩ := bind_eq_ok_iff.mp h
    obtain ⟨others, hothers, h⟩ := bind_eq_ok_iff.mp h
    obtain rfl := Except.ok.inj h
    rw [List.length_cons, List.length_cons, ih hothers]

theorem constants_faultless {arguments : List (Expr α)}
    (h : ∀ e ∈ arguments, Faultless Obstacle.fault? e.collapse) :
    Faultless Obstacle.fault? (constants arguments) := by
  induction arguments with
  | nil => exact faultless_ok _
  | cons e rest ih =>
    obtain ⟨he, hrest⟩ := List.forall_mem_cons.mp h
    rw [constants]
    refine he.bind fun terms _ => ?_
    split
    · exact (ih hrest).bind fun _ _ => faultless_ok _
    · exact faultless_error rfl

theorem values_faultless {es : List (Expr α)} {b : Bindings α}
    (h : ∀ e ∈ es, Faultless (EvalError.fault? (α := α)) (e.value b)) :
    Faultless (EvalError.fault? (α := α)) (values es b) := by
  induction es with
  | nil => exact faultless_ok _
  | cons e rest ih =>
    obtain ⟨he, hrest⟩ := List.forall_mem_cons.mp h
    rw [values]
    exact he.bind fun _ _ => (ih hrest).bind fun _ _ => faultless_ok _

/-- **Collapsing a well formed expression breaks no promise.** -/
theorem collapse_faultless [ZeroIsNear α] {e : Expr α} (h : e.WellFormed) :
    Faultless Obstacle.fault? e.collapse := by
  induction e using Expr.induct with
  | sum terms => exact faultless_ok _
  | binary op left right ihl ihr =>
    obtain ⟨hl, hr⟩ := wellFormed_binary_iff.mp h
    rw [collapse]
    split
    · exact faultless_error rfl
    · exact (ihl hl).bind fun l _ => (ihr hr).bind fun r _ => TermSum.combine_faultless op l r
  | call f arguments ih =>
    obtain ⟨hlength, hall⟩ := wellFormed_call_iff.mp h
    rw [collapse]
    refine (constants_faultless fun e he => ih e he (hall e he)).bind fun numbers hnumbers => ?_
    have hsome : (Number.apply f numbers).isSome = true :=
      (Number.apply_isSome_iff f numbers).mpr ((constants_length hnumbers).trans hlength)
    obtain ⟨x, hx⟩ := Option.isSome_iff_exists.mp hsome
    rw [hx]
    exact faultless_ok _

theorem term_value_faultless (t : Term α) (b : Bindings α) :
    Faultless (EvalError.fault? (α := α)) (t.value b) := by
  rw [Term.value]
  refine faultless_foldlM (fun product e => ?_) _ _
  rw [Term.value.multiplyPower]
  split
  · exact faultless_ok _
  · exact faultless_error rfl

theorem operator_apply_faultless (op : Operator) (x y : α) :
    Faultless (EvalError.fault? (α := α)) (op.apply x y) := by
  cases op with
  | add => exact faultless_ok _
  | subtract => exact faultless_ok _
  | multiply => exact faultless_ok _
  | divide =>
    rw [Operator.apply]
    split
    · exact faultless_error rfl
    · exact faultless_ok _
  | power => exact faultless_ok _

/-- **Evaluating a well formed expression breaks no promise.** -/
theorem value_faultless {e : Expr α} (h : e.WellFormed) (b : Bindings α) :
    Faultless (EvalError.fault? (α := α)) (e.value b) := by
  induction e using Expr.induct with
  | sum terms => exact (faultless_mapM fun t _ => term_value_faultless t b).map _
  | binary op left right ihl ihr =>
    obtain ⟨hl, hr⟩ := wellFormed_binary_iff.mp h
    rw [value]
    exact (ihl hl).bind fun x _ => (ihr hr).bind fun y _ => operator_apply_faultless op x y
  | call f arguments ih =>
    obtain ⟨hlength, hall⟩ := wellFormed_call_iff.mp h
    rw [value]
    refine (values_faultless fun e he => ih e he (hall e he)).bind fun numbers hnumbers => ?_
    have hsome : (Number.apply f numbers).isSome = true :=
      (Number.apply_isSome_iff f numbers).mpr ((values_length hnumbers).trans hlength)
    obtain ⟨x, hx⟩ := Option.isSome_iff_exists.mp hsome
    rw [applyFunction, hx]
    exact faultless_ok _

end Expr

end PolyAlgebra
