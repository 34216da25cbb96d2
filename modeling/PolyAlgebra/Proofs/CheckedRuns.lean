/-
Checked runs.

A fault cannot be seen in a result, since most operations only try whether something collapses and
go on when it does not.  So the operations are run here with a check after each attempt, which ends
the whole run at the first fault.  Apart from the checks, every step is the one of the operation
itself.

A checked run of a well formed expression is the run itself (`runsThrough`).  All that has to be
shown is that whatever is tried or evaluated on the way is well formed as well.  A call of too many
or too few constants does make a checked run stop (`simplifyChecked_wrongCount`).
-/
import Mathlib
import PolyAlgebra.Proofs.Faults

namespace PolyAlgebra

variable {α : Type} [Number α]

/-- A run that ends at the first broken promise. -/
abbrev Checked (α : Type) [Number α] (β : Type) := Except (Fault α) β

/-! ### Attempts -/

section Attempts

variable {β γ ε : Type} {fault? : ε → Option (Fault α)}

/-- Make an attempt, which may fail but must not break a promise. -/
def attempt (fault? : ε → Option (Fault α)) (x : Except ε β) : Checked α (Except ε β) :=
  match x with
  | .ok b => .ok (.ok b)
  | .error error =>
    match fault? error with
    | some fault => .error fault
    | none => .ok (.error error)

theorem attempt_eq_ok {x : Except ε β} (h : Faultless fault? x) : attempt fault? x = .ok x := by
  cases x with
  | ok b => rfl
  | error error => rw [attempt, h error rfl]

theorem foldlM_eq_ok {f : γ → β → Except ε γ} {g : γ → β → γ} (h : ∀ c x, f c x = .ok (g c x))
    (xs : List β) (start : γ) : xs.foldlM f start = .ok (xs.foldl g start) := by
  induction xs generalizing start with
  | nil => rfl
  | cons x rest ih =>
    rw [List.foldlM_cons, h, List.foldl_cons]
    exact ih _

/-- A checked run, which may fail, ends as the run itself does. -/
def Passes (x : ExceptT ε (Checked α) β) (r : Except ε β) : Prop := x.run = .ok r

theorem passes_pure (b : β) : Passes (pure b : ExceptT ε (Checked α) β) (.ok b) := rfl

theorem passes_throw (error : ε) : Passes (throw error : ExceptT ε (Checked α) β) (.error error) :=
  rfl

theorem passes_lift {x : Checked α β} {b : β} (h : x = .ok b) :
    Passes (liftM x : ExceptT ε (Checked α) β) (.ok b) := by
  rw [h]
  rfl

theorem Passes.bind {x : ExceptT ε (Checked α) β} {r : Except ε β}
    {f : β → ExceptT ε (Checked α) γ} {g : β → Except ε γ} (hx : Passes x r)
    (hf : ∀ b, r = .ok b → Passes (f b) (g b)) : Passes (x >>= f) (r >>= g) := by
  rw [Passes, ExceptT.run_bind, hx]
  cases r with
  | error error => rfl
  | ok b => exact hf b rfl

/-- A step that cannot fail of itself comes first. -/
theorem passes_lift_bind {x : Checked α β} {b : β} {f : β → ExceptT ε (Checked α) γ}
    {r : Except ε γ} (hx : x = .ok b) (hf : Passes (f b) r) : Passes (liftM x >>= f) r :=
  (passes_lift hx).bind (g := fun _ => r) fun _ h => Except.ok.inj h ▸ hf

theorem Passes.map {x : ExceptT ε (Checked α) β} {r : Except ε β} (hx : Passes x r) (f : β → γ) :
    Passes (f <$> x) (f <$> r) := by
  rw [Passes, ExceptT.run_map, hx]
  cases r <;> rfl

theorem passes_mapM {f : β → ExceptT ε (Checked α) γ} {g : β → Except ε γ} {xs : List β}
    (h : ∀ x ∈ xs, Passes (f x) (g x)) : Passes (xs.mapM f) (xs.mapM g) := by
  induction xs with
  | nil => exact passes_pure _
  | cons x rest ih =>
    obtain ⟨hx, hrest⟩ := List.forall_mem_cons.mp h
    rw [List.mapM_cons, List.mapM_cons]
    exact hx.bind fun _ _ => (ih hrest).bind fun _ _ => passes_pure _

end Attempts

namespace Expr

/-! ### The operations -/

/-- The sum that an expression collapses into, or what stands in the way. -/
def collapseChecked (e : Expr α) : Checked α (Except (Obstacle α) (TermSum α)) :=
  attempt Obstacle.fault? e.collapse

/-- The value of an expression, or why there is none. -/
def valueChecked (e : Expr α) (b : Bindings α) : Checked α (Except EvalError α) :=
  attempt EvalError.fault? (e.value b)

/-- The expression as a single sum, if it collapses. -/
def trySimplifyChecked (e : Expr α) : Checked α (Option (Expr α)) := do
  let collapsed ← e.collapseChecked
  return collapsed.toOption.map .sum

mutual

/-- Collapse as much of an expression as possible. -/
def simplifyChecked : Expr α → Checked α (Expr α)
  | .sum terms => return ofTerms terms
  | .binary op left right => do
    match ← collapseChecked (.binary op left right) with
    | .ok terms => return .sum terms
    | .error _ => return .binary op (← simplifyChecked left) (← simplifyChecked right)
  | .call f arguments => do
    match ← collapseChecked (.call f arguments) with
    | .ok terms => return .sum terms
    | .error _ => return .call f (← simplifyAllChecked arguments)

/-- Simplify several expressions. -/
def simplifyAllChecked : List (Expr α) → Checked α (List (Expr α))
  | [] => return []
  | e :: rest => return (← simplifyChecked e) :: (← simplifyAllChecked rest)

end

mutual

/-- The degree of an expression. -/
def degreeChecked : Expr α → Checked α α
  | .sum terms => return TermSum.degree terms
  | .binary op left right => do
    match ← collapseChecked (.binary op left right) with
    | .ok terms => return TermSum.degree terms
    | .error _ => return Number.largest [← degreeChecked left, ← degreeChecked right]
  | .call _ arguments => return Number.largest (0 :: (← degreesChecked arguments))

/-- The degrees of several expressions. -/
def degreesChecked : List (Expr α) → Checked α (List α)
  | [] => return []
  | e :: rest => return (← degreeChecked e) :: (← degreesChecked rest)

end

/-- The quotient rule.  A zero numerator makes the whole quotient zero. -/
def quotientDerivativeChecked (left right dleft dright : Expr α) : Checked α (Expr α) := do
  let l ← simplifyChecked (.binary .multiply right dleft)
  let r ← simplifyChecked (.binary .multiply left dright)
  let numerator ← simplifyChecked (.binary .subtract l r)
  if numerator.isZero then return zero
  else
    let quotient := .binary .divide numerator (← simplifyChecked (.binary .multiply right right))
    return (← trySimplifyChecked quotient).getD quotient

/-- The simplified derivative of an operation from its operands and their derivatives. -/
def combineDerivativesChecked (op : Operator) (left right dleft dright : Expr α) :
    ExceptT (CalculusError α) (Checked α) (Expr α) :=
  match op with
  | .add => simplifyChecked (.binary .add dleft dright)
  | .subtract => simplifyChecked (.binary .subtract dleft dright)
  | .multiply => do
    let l ← simplifyChecked (.binary .multiply left dright)
    let r ← simplifyChecked (.binary .multiply right dleft)
    simplifyChecked (.binary .add l r)
  | .divide => quotientDerivativeChecked left right dleft dright
  | .power => throw (.notDifferentiable (.operator .power))

/-- The derivative with respect to a variable. -/
def differentiateChecked (e : Expr α) (name : String) :
    ExceptT (CalculusError α) (Checked α) (Expr α) :=
  match e with
  | .sum terms => return ofTerms (terms.map (fun t => t.differentiate name))
  | .binary op left right =>
    if op = .power then throw (.notDifferentiable (.operator .power))
    else do
      let dleft ← differentiateChecked left name
      let dright ← differentiateChecked right name
      combineDerivativesChecked op left right dleft dright
  | .call f _ => throw (.notDifferentiable (.function f))

/-- The derivatives with respect to every variable. -/
def gradientChecked (e : Expr α) : ExceptT (CalculusError α) (Checked α) (Vector α) :=
  (fun components => ⟨NameMap.ofList components⟩) <$>
    e.variableNames.mapM (fun name => (fun d => (name, d)) <$> e.differentiateChecked name)

/-! ### Runs of well formed expressions -/

theorem simplifyAllChecked_eq {es : List (Expr α)}
    (h : ∀ e ∈ es, e.simplifyChecked = .ok e.simplify) :
    simplifyAllChecked es = .ok (simplifyAll es) := by
  induction es with
  | nil => rfl
  | cons e rest ih =>
    obtain ⟨he, hrest⟩ := List.forall_mem_cons.mp h
    rw [simplifyAllChecked, he, ih hrest]
    rfl

theorem degreesChecked_eq {es : List (Expr α)} (h : ∀ e ∈ es, e.degreeChecked = .ok e.degree) :
    degreesChecked es = .ok (degrees es) := by
  induction es with
  | nil => rfl
  | cons e rest ih =>
    obtain ⟨he, hrest⟩ := List.forall_mem_cons.mp h
    rw [degreesChecked, he, ih hrest]
    rfl

theorem valueChecked_eq {e : Expr α} (h : e.WellFormed) (b : Bindings α) :
    e.valueChecked b = .ok (e.value b) :=
  attempt_eq_ok (value_faultless h b)

variable [ZeroIsNear α] {e : Expr α}

theorem collapseChecked_eq (h : e.WellFormed) : e.collapseChecked = .ok e.collapse :=
  attempt_eq_ok (collapse_faultless h)

theorem trySimplifyChecked_eq (h : e.WellFormed) : e.trySimplifyChecked = .ok e.trySimplify := by
  rw [trySimplifyChecked, collapseChecked_eq h]
  rfl

theorem simplifyChecked_eq (h : e.WellFormed) : e.simplifyChecked = .ok e.simplify := by
  induction e using Expr.induct with
  | sum terms => rfl
  | binary op left right ihl ihr =>
    obtain ⟨hl, hr⟩ := wellFormed_binary_iff.mp h
    rw [simplifyChecked, collapseChecked_eq h, simplify, ihl hl, ihr hr]
    cases collapse (.binary op left right) <;> rfl
  | call f arguments ih =>
    obtain ⟨-, hall⟩ := wellFormed_call_iff.mp h
    rw [simplifyChecked, collapseChecked_eq h, simplify,
      simplifyAllChecked_eq fun e he => ih e he (hall e he)]
    cases collapse (.call f arguments) <;> rfl

theorem degreeChecked_eq (h : e.WellFormed) : e.degreeChecked = .ok e.degree := by
  induction e using Expr.induct with
  | sum terms => rfl
  | binary op left right ihl ihr =>
    obtain ⟨hl, hr⟩ := wellFormed_binary_iff.mp h
    rw [degreeChecked, collapseChecked_eq h, degree, ihl hl, ihr hr]
    cases collapse (.binary op left right) <;> rfl
  | call f arguments ih =>
    obtain ⟨-, hall⟩ := wellFormed_call_iff.mp h
    rw [degreeChecked, degree, degreesChecked_eq fun e he => ih e he (hall e he)]
    rfl

theorem simplifyChecked_binary_eq (op : Operator) {left right : Expr α} (hl : left.WellFormed)
    (hr : right.WellFormed) : simplifyChecked (.binary op left right)
      = .ok (simplify (.binary op left right)) :=
  simplifyChecked_eq (wellFormed_binary_iff.mpr ⟨hl, hr⟩)

section Derivatives

variable {left right dleft dright : Expr α} (hl : left.WellFormed) (hr : right.WellFormed)
  (hdl : dleft.WellFormed) (hdr : dright.WellFormed)

include hl hr hdl hdr

theorem quotientDerivativeChecked_eq : quotientDerivativeChecked left right dleft dright
    = .ok (combineDerivatives.quotientDerivative left right dleft dright) := by
  have hwl := establishes_wellFormed.simplify_binary .multiply hr hdl
  have hwr := establishes_wellFormed.simplify_binary .multiply hl hdr
  have hnumerator := establishes_wellFormed.simplify_binary .subtract hwl hwr
  have hsquare := establishes_wellFormed.simplify_binary .multiply hr hr
  have htry := trySimplifyChecked_eq (e := .binary .divide _ _)
    (wellFormed_binary_iff.mpr ⟨hnumerator, hsquare⟩)
  simp only [quotientDerivativeChecked, simplifyChecked_binary_eq .multiply hr hdl,
    simplifyChecked_binary_eq .multiply hl hdr, simplifyChecked_binary_eq .subtract hwl hwr,
    simplifyChecked_binary_eq .multiply hr hr, combineDerivatives.quotientDerivative, bind,
    Except.bind, htry]
  split <;> rfl

theorem combineDerivativesChecked_passes (op : Operator) :
    Passes (combineDerivativesChecked op left right dleft dright)
      (combineDerivatives op left right dleft dright) := by
  cases op with
  | add => exact passes_lift (simplifyChecked_binary_eq .add hdl hdr)
  | subtract => exact passes_lift (simplifyChecked_binary_eq .subtract hdl hdr)
  | multiply =>
    have hwl := establishes_wellFormed.simplify_binary .multiply hl hdr
    have hwr := establishes_wellFormed.simplify_binary .multiply hr hdl
    exact passes_lift_bind (simplifyChecked_binary_eq .multiply hl hdr)
      (passes_lift_bind (simplifyChecked_binary_eq .multiply hr hdl)
        (passes_lift (simplifyChecked_binary_eq .add hwl hwr)))
  | divide => exact passes_lift (quotientDerivativeChecked_eq hl hr hdl hdr)
  | power => exact passes_throw _

end Derivatives

/-- An operand is well formed where its derivative is used, since it has one. -/
theorem differentiateChecked_passes (e : Expr α) (name : String) :
    Passes (e.differentiateChecked name) (e.differentiate name) := by
  induction e using Expr.induct with
  | sum terms => exact passes_pure _
  | binary op left right ihl ihr =>
    rw [differentiateChecked, differentiate]
    split
    · exact passes_throw _
    · refine ihl.bind fun dleft hdl => ihr.bind fun dright hdr => ?_
      have hl := wellFormed_of_differentiate hdl
      have hr := wellFormed_of_differentiate hdr
      exact combineDerivativesChecked_passes hl hr (differentiate_wellFormed hl hdl)
        (differentiate_wellFormed hr hdr) op
  | call f arguments _ => exact passes_throw _

theorem gradientChecked_passes (e : Expr α) : Passes e.gradientChecked e.gradient :=
  (passes_mapM fun name _ => (differentiateChecked_passes e name).map _).map _

end Expr

/-! ### Searching for a root -/

namespace Solver

/-- Look at one more point. -/
def considerChecked (e : Expr α) (search : Search α) (candidate : NameMap α) :
    Checked α (Search α) := do
  match ← e.valueChecked candidate.get? with
  | .ok value =>
    if isBetter value search.best then
      return { search with point := candidate, best := some value }
    else return search
  | .error error => return { search with failure := some error }

/-- Try every whole number for one variable, the others as in the best point so far. -/
def sweepChecked (solver : Solver α) (e : Expr α) (search : Search α) (name : String) :
    Checked α (Search α) :=
  (wholeNumbers solver.low solver.high).foldlM
    (fun seen (n : Int) => considerChecked e seen (search.point.insert name (n : α))) search

/-- The search over whole numbers, from the point with all coordinates lowest. -/
def searchChecked (solver : Solver α) (e : Expr α) (names : List String) :
    Checked α (Search α) := do
  let first := NameMap.ofList (names.map (fun name => (name, (solver.low : α))))
  names.foldlM (sweepChecked solver e) (← considerChecked e ⟨first, none, none⟩ first)

/-- The point to start from and the value there. -/
def startingPointChecked (solver : Solver α) (e : Expr α) (names : List String) :
    ExceptT SolveError (Checked α) (NameMap α × α) := do
  let found ← searchChecked solver e names
  match found.best, found.failure with
  | some value, _ => return (found.point, value)
  | none, some error => throw (.evaluation error)
  | none, none => throw .noStartingPoint

/-- Improve a point a number of times at most. -/
def iterateChecked (e : Expr α) (epsilon : α) : Nat → NameMap α × α → Checked α (NameMap α × α)
  | 0, found => return found
  | iterations + 1, (point, value) =>
    if Number.abs value < epsilon then return (point, value)
    else do
      let next := point.map (fun x => x - value)
      match ← e.valueChecked next.get? with
      | .ok nextValue =>
        if Number.isFinite nextValue then iterateChecked e epsilon iterations (next, nextValue)
        else return (point, value)
      | .error _ => return (point, value)

/-- One root by search. -/
def solveIterativelyChecked (solver : Solver α) (e : Expr α) (names : List String) :
    ExceptT SolveError (Checked α) (Root α) := do
  let start ← startingPointChecked solver e names
  let found ← iterateChecked e solver.epsilon solver.maxIterations start
  return ⟨Vector.ofNumbers found.1, Number.abs found.2⟩

/-- The roots of an expression. -/
def solveChecked (solver : Solver α) (e : Expr α) :
    ExceptT SolveError (Checked α) (List (Root α)) := do
  let simplified ← e.simplifyChecked
  match closedForm? simplified with
  | some roots => return roots
  | none => ([·]) <$> solver.solveIterativelyChecked simplified simplified.variableNames

section Runs

variable {e : Expr α} (h : e.WellFormed)

include h

theorem considerChecked_eq (seen : Search α) (candidate : NameMap α) :
    considerChecked e seen candidate = .ok (consider e seen candidate) := by
  rw [considerChecked, Expr.valueChecked_eq h, consider, valueAt]
  cases e.value candidate.get? with
  | error error => rfl
  | ok value =>
    dsimp only [bind, Except.bind]
    split <;> rfl

theorem sweepChecked_eq (solver : Solver α) (seen : Search α) (name : String) :
    sweepChecked solver e seen name = .ok (sweep solver e seen name) :=
  foldlM_eq_ok (fun _ _ => considerChecked_eq h _ _) _ _

theorem searchChecked_eq (solver : Solver α) (names : List String) :
    searchChecked solver e names = .ok (solver.search e names) := by
  rw [searchChecked, considerChecked_eq h]
  exact foldlM_eq_ok (fun seen name => sweepChecked_eq h solver seen name) _ _

theorem startingPointChecked_passes (solver : Solver α) (names : List String) :
    Passes (startingPointChecked solver e names) (solver.startingPoint e names) := by
  refine passes_lift_bind (searchChecked_eq h solver names) ?_
  rw [startingPoint]
  cases (solver.search e names).best with
  | some value => exact passes_pure _
  | none =>
    cases (solver.search e names).failure with
    | some error => exact passes_throw _
    | none => exact passes_throw _

theorem iterateChecked_eq (epsilon : α) (iterations : Nat) (found : NameMap α × α) :
    iterateChecked e epsilon iterations found = .ok (iterate e epsilon iterations found) := by
  induction iterations generalizing found with
  | zero => rfl
  | succ iterations ih =>
    obtain ⟨point, value⟩ := found
    rw [iterateChecked, iterate]
    split
    · rfl
    · dsimp only
      rw [Expr.valueChecked_eq h, valueAt]
      cases e.value (point.map fun x => x - value).get? with
      | error error => rfl
      | ok nextValue =>
        dsimp only [bind, Except.bind]
        split
        · exact ih _
        · rfl

theorem solveIterativelyChecked_passes (solver : Solver α) (names : List String) :
    Passes (solveIterativelyChecked solver e names) (solver.solveIteratively e names) := by
  rw [solveIteratively, ← bind_pure_comp]
  exact (startingPointChecked_passes h solver names).bind fun start _ =>
    passes_lift_bind (iterateChecked_eq h _ _ start) (passes_pure _)

end Runs

theorem solveChecked_passes [ZeroIsNear α] (solver : Solver α) {e : Expr α} (h : e.WellFormed) :
    Passes (solveChecked solver e) (solver.solve e) := by
  refine passes_lift_bind (Expr.simplifyChecked_eq h) ?_
  rw [solve]
  cases closedForm? e.simplify with
  | some roots => exact passes_pure _
  | none => exact (solveIterativelyChecked_passes (Expr.simplify_wellFormed h) solver _).map _

end Solver

namespace Expr

/-! ### All operations -/

/-- A checked run does stop: at a call of constants that are too many or too few. -/
theorem simplifyChecked_wrongCount {f : Elementary} {arguments : List (Expr α)} {numbers : List α}
    (h : constants arguments = .ok numbers) (hlength : arguments.length ≠ f.arity) :
    (Expr.call f arguments).simplifyChecked
      = .error (.count (.arguments f arguments.length)) := by
  have hnone : Number.apply f numbers = none := by
    rw [← Option.not_isSome_iff_eq_none, Number.apply_isSome_iff, constants_length h]
    exact hlength
  have hcollapse : (Expr.call f arguments).collapse
      = .error (.wrongCount (.arguments f arguments.length)) := by
    simp only [collapse, h, bind, Except.bind, hnone, constants_length h]
  rw [simplifyChecked, collapseChecked, hcollapse]
  rfl

/-- No operation on an expression breaks a promise on the way, and what it returns is well formed.
In substituting, and in composing with another expression, no promise is made. -/
structure RunsThrough (e replacement : Expr α) : Prop where
  simplify : e.simplifyChecked = .ok e.simplify ∧ e.simplify.WellFormed
  trySimplify : e.trySimplifyChecked = .ok e.trySimplify ∧
    ∀ r, e.trySimplify = some r → r.WellFormed
  degree : e.degreeChecked = .ok e.degree
  value : ∀ b, e.valueChecked b = .ok (e.value b)
  substitute : ∀ b, (e.substitute b).WellFormed
  compose : ∀ name, (e.compose name replacement).WellFormed
  differentiate : ∀ name, (e.differentiateChecked name).run = .ok (e.differentiate name) ∧
    ∀ d, e.differentiate name = .ok d → d.WellFormed
  gradient : e.gradientChecked.run = .ok e.gradient ∧
    ∀ v, e.gradient = .ok v → ∀ name d, v.get? name = some d → d.WellFormed
  solve : ∀ solver : Solver α, (solver.solveChecked e).run = .ok (solver.solve e) ∧
    ∀ roots, solver.solve e = .ok roots → ∀ root ∈ roots, ∀ name r,
      root.point.get? name = some r → r.WellFormed

/-- **On well formed expressions no promise is ever broken**, in any arithmetic in which zero
counts as zero. -/
theorem runsThrough [ZeroIsNear α] {e replacement : Expr α} (h : e.WellFormed)
    (hr : replacement.WellFormed) : e.RunsThrough replacement where
  simplify := ⟨simplifyChecked_eq h, simplify_wellFormed h⟩
  trySimplify := ⟨trySimplifyChecked_eq h, fun _ hr => wellFormed_of_trySimplify hr⟩
  degree := degreeChecked_eq h
  value := valueChecked_eq h
  substitute := substitute_wellFormed h
  compose := compose_wellFormed hr h
  differentiate name := ⟨differentiateChecked_passes e name, fun _ hd =>
    differentiate_wellFormed h hd⟩
  gradient := ⟨gradientChecked_passes e, fun _ hv _ _ hd => gradient_wellFormed h hv hd⟩
  solve solver := ⟨solver.solveChecked_passes h, fun _ hroots _ hroot _ _ hr =>
    Solver.solve_wellFormed hroots hroot hr⟩

/-- Doubles, in a division by a sum that is nearly zero and a call of constants. -/
theorem runsThrough_quotient :
    let small : Expr Float := .sum [Term.ofPowers 1e-7 [("x", 1)], Term.ofNumber 1e-7]
    let angle : Expr Float := .call .angle [.sum [Term.ofNumber 1], .sum [Term.ofNumber 2]]
    let e : Expr Float := .binary .divide (.binary .multiply angle small) small
    (ZeroIsNear Float ∧ e.WellFormed ∧ angle.WellFormed) ∧ e.RunsThrough angle := by
  intro small angle e
  have hangle : angle.WellFormed := ⟨rfl, trivial, trivial, trivial⟩
  have he : e.WellFormed := ⟨⟨hangle, trivial⟩, trivial⟩
  exact ⟨⟨inferInstance, he, hangle⟩, runsThrough he hangle⟩

end Expr

end PolyAlgebra
