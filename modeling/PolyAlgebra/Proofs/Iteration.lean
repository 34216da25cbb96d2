/-
The iteration as it is documented.

From the point that the search over whole numbers ends with, the value of the expression is taken
off every coordinate again and again.  The points of that sequence do not depend on when it is
stopped, so `orbit` gives all of them.  A run ends at the first one that is a reason to stop, and
the value it holds is the one there (`iterate_ends`): the induction is on the iterations left, and
the sequence from the second point on is the same sequence one step later (`stops_succ_iff`).  Up
to there nothing is assumed of the numbers.

A step is taken whatever it does to the value, so a run may end further from zero than it began
(`solve_cube_root`).  It does not if the value it ends with is small, for it was not small before,
nor if none of its steps raises the value (`solve_iterations`).  That compares numbers, which
needs them to be ordered and the finite ones to be defined.
-/
import Mathlib
import PolyAlgebra.Proofs.Double.Signs
import PolyAlgebra.Proofs.RootSearch
import PolyAlgebra.Proofs.Tolerance

namespace PolyAlgebra.Solver

variable {α : Type} [Number α]

/-! ### The sequence of points -/

/-- The next point: the value of the expression is taken off every coordinate.  Where there is no
value, the point stays. -/
def descend (e : Expr α) (point : NameMap α) : NameMap α :=
  match valueAt e point with
  | .ok value => point.map (fun x => x - value)
  | .error _ => point

/-- The point after a number of steps. -/
def orbit (e : Expr α) (start : NameMap α) (steps : Nat) : NameMap α := (descend e)^[steps] start

/-- The expression has a value at a point, and it is finite. -/
def HasFiniteValue (e : Expr α) (point : NameMap α) : Prop :=
  ∃ value, valueAt e point = .ok value ∧ Number.isFinite value = true

/-- The reasons to stop after a number of steps. -/
inductive Stops (epsilon : α) (iterations : Nat) (e : Expr α) (start : NameMap α)
    (steps : Nat) : Prop where
  /-- The iterations are used up. -/
  | usedUp (h : steps = iterations)
  /-- The value is close enough to zero. -/
  | small {value : α} (hvalue : valueAt e (orbit e start steps) = .ok value)
    (h : Number.abs value < epsilon)
  /-- There is no finite value one step further. -/
  | diverges (h : ¬ HasFiniteValue e (orbit e start (steps + 1)))

/-- What a run ends with: the point at the first reason to stop, and the value there. -/
def Ends (epsilon : α) (iterations : Nat) (e : Expr α) (start : NameMap α)
    (found : NameMap α × α) : Prop :=
  ∃ steps, IsLeast {k | Stops epsilon iterations e start k} steps ∧
    found.1 = orbit e start steps ∧ valueAt e found.1 = .ok found.2

section Sequence

variable {e : Expr α} {start : NameMap α} {value epsilon : α} {iterations steps : Nat}

theorem descend_of_value (h : valueAt e start = .ok value) :
    descend e start = start.map (fun x => x - value) := by
  rw [descend, h]

/-- The sequence goes on from every point as it began. -/
theorem orbit_succ (e : Expr α) (start : NameMap α) (steps : Nat) :
    orbit e start (steps + 1) = descend e (orbit e start steps) :=
  Function.iterate_succ_apply' (descend e) steps start

/-- The sequence from the second point on is the same sequence one step later. -/
theorem stops_succ_iff : Stops epsilon (iterations + 1) e start (steps + 1) ↔
    Stops epsilon iterations e (descend e start) steps := by
  constructor
  · rintro (h | ⟨hvalue, h⟩ | h)
    · exact .usedUp (Nat.succ.inj h)
    · exact .small hvalue h
    · exact .diverges h
  · rintro (h | ⟨hvalue, h⟩ | h)
    · exact .usedUp (congrArg Nat.succ h)
    · exact .small hvalue h
    · exact .diverges h

theorem ends_here (h : Stops epsilon iterations e start 0) (hvalue : valueAt e start = .ok value) :
    Ends epsilon iterations e start (start, value) :=
  ⟨0, ⟨h, fun _ _ => Nat.zero_le _⟩, rfl, hvalue⟩

/-- If the first point is no reason to stop, the run is one step longer than from the second. -/
theorem Ends.succ {found : NameMap α × α} (h : Ends epsilon iterations e (descend e start) found)
    (h0 : ¬ Stops epsilon (iterations + 1) e start 0) :
    Ends epsilon (iterations + 1) e start found := by
  obtain ⟨steps, hleast, hpoint, hvalue⟩ := h
  refine ⟨steps + 1, ⟨stops_succ_iff.mpr hleast.1, fun k hk => ?_⟩, hpoint, hvalue⟩
  cases k with
  | zero => exact absurd hk h0
  | succ k => exact Nat.succ_le_succ (hleast.2 (stops_succ_iff.mp hk))

/-- **A run ends at the first reason to stop**, with the value that the expression has there. -/
theorem iterate_ends (epsilon : α) (iterations : Nat) (h : valueAt e start = .ok value) :
    Ends epsilon iterations e start (iterate e epsilon iterations (start, value)) := by
  induction iterations generalizing start value with
  | zero => exact ends_here (.usedUp rfl) h
  | succ iterations ih =>
    rw [iterate]
    split
    · rename_i hsmall
      exact ends_here (.small h hsmall) h
    · rename_i hlarge
      dsimp only
      rw [← descend_of_value h]
      split
      · rename_i nextValue hnext
        split
        · rename_i hfinite
          -- none of the three reasons holds here
          refine (ih hnext).succ ?_
          rintro (hused | ⟨hvalue, hsmall⟩ | hdiverges)
          · cases hused
          · obtain rfl := Except.ok.inj (h.symm.trans hvalue)
            exact hlarge hsmall
          · exact hdiverges ⟨nextValue, hnext, hfinite⟩
        · rename_i hinfinite
          refine ends_here (.diverges ?_) h
          rintro ⟨next, hvalue, hfinite⟩
          obtain rfl := Except.ok.inj (hnext.symm.trans hvalue)
          exact hinfinite hfinite
      · rename_i error herror
        refine ends_here (.diverges ?_) h
        rintro ⟨next, hvalue, -⟩
        cases herror.symm.trans hvalue

/-- All points of the sequence are points for the same variables. -/
theorem orbit_covers {names : List String} (h : start.Covers names) (steps : Nat) :
    (orbit e start steps).Covers names := by
  induction steps with
  | zero => exact h
  | succ steps ih =>
    rw [orbit_succ, descend]
    split
    · exact ih.map _
    · exact ih

end Sequence

/-! ### The answer of a solver -/

section Answer

variable {solver : Solver α} {e : Expr α} {start : NameMap α} {value : α}

theorem solve_of_closedForm?_eq_none (h : closedForm? e.simplify = none) :
    solver.solve e
      = ([·]) <$> solver.solveIteratively e.simplify e.simplify.variableNames := by
  rw [solve, h]

/-- An expression with a starting point and no formula gets the one root that the run ends with. -/
theorem solve_ends (solver : Solver α) (h : closedForm? e.simplify = none)
    (hstart : solver.startingPoint e.simplify e.simplify.variableNames = .ok (start, value)) :
    ∃ found, Ends solver.epsilon solver.maxIterations e.simplify start found ∧
      solver.solve e = .ok [⟨Vector.ofNumbers found.1, Number.abs found.2⟩] := by
  have hends := iterate_ends solver.epsilon solver.maxIterations
    (startingPoint_found hstart).value_eq
  refine ⟨_, hends, ?_⟩
  rw [solve_of_closedForm?_eq_none h, solveIteratively, hstart]
  rfl

/-- **Iterative solving is the documented iteration**, in any arithmetic.  An expression that no
formula solves and that has a starting point gets exactly one root.  Let each point be the one
before it with the value of the simplified expression there taken off every coordinate.  The root
is the first of these points that is a reason to stop: the iterations are used up, the value is
below epsilon, or there is no finite value at the next point.  It covers exactly the variables of
the simplified expression, and its residual is the absolute value at that very point. -/
theorem solve_iterates (h : closedForm? e.simplify = none)
    (hstart : solver.startingPoint e.simplify e.simplify.variableNames = .ok (start, value)) :
    ∃ steps last,
      IsLeast {k | Stops solver.epsilon solver.maxIterations e.simplify start k} steps ∧
        valueAt e.simplify (orbit e.simplify start steps) = .ok last ∧
        (orbit e.simplify start steps).Covers e.simplify.variableNames ∧
        solver.solve e
          = .ok [⟨Vector.ofNumbers (orbit e.simplify start steps), Number.abs last⟩] := by
  obtain ⟨⟨_, last⟩, ⟨steps, hleast, rfl, hlast⟩, hsolve⟩ := solve_ends solver h hstart
  exact ⟨steps, last, hleast, hlast, orbit_covers (startingPoint_found hstart).covers steps, hsolve⟩

end Answer

/-- One step leads from the best whole numbers to a zero of half the sum minus a third. -/
theorem solve_iterates_plane :
    let e : Expr ℚ := .sum [Term.ofPowers (1 / 2) [("x", 1)], Term.ofPowers (1 / 2) [("y", 1)],
      Term.ofNumber (-1 / 3)]
    let solver : Solver ℚ := ⟨Number.tolerance, 100, 0, 1⟩
    closedForm? e.simplify = none ∧ ∃ start value,
      solver.startingPoint e.simplify e.simplify.variableNames = .ok (start, value) ∧
        ∃ steps last,
          IsLeast {k | Stops solver.epsilon solver.maxIterations e.simplify start k} steps ∧
            valueAt e.simplify (orbit e.simplify start steps) = .ok last ∧
            (orbit e.simplify start steps).Covers e.simplify.variableNames ∧
            solver.solve e
              = .ok [⟨Vector.ofNumbers (orbit e.simplify start steps), Number.abs last⟩] := by
  intro e solver
  have hformula : closedForm? e.simplify = none :=
    Option.isNone_iff_eq_none.mp (by decide +kernel)
  have hsome : (solver.startingPoint e.simplify
      e.simplify.variableNames).toOption.isSome = true := by
    decide +kernel
  obtain ⟨⟨start, value⟩, hstart⟩ := exists_eq_ok_of_isSome hsome
  exact ⟨hformula, start, value, hstart, solve_iterates hformula hstart⟩

/-! ### Accuracy -/

/-- Finite numbers have an absolute value that is defined. -/
class DefinedMagnitudes (α : Type) [Number α] : Prop where
  abs_defined : ∀ x : α, Number.isFinite x = true → Number.isUndefined (Number.abs x) = false

instance instDefinedMagnitudesExact {K : Type} [Field K] [LinearOrder K] [FloorRing K]
    [Unsettled K] : DefinedMagnitudes K where
  abs_defined x _ := by simp [Number.isUndefined]

instance instDefinedMagnitudesFloat : DefinedMagnitudes Float where
  abs_defined x h := by
    have hdefined : Double.unpacked x ≠ .notANumber := by
      rcases (Double.isFinite_iff x).mp h with ⟨s, hx⟩ | ⟨s, m, e, hpos, hx⟩ <;> simp [hx]
    rw [Number.abs]
    split
    · rw [Double.isUndefined_eq_false_iff, Double.unpacked_neg]
      cases hx : Double.unpacked x <;> simp_all [Float.Model.UnpackedFloat.neg]
    · split
      · exact OrderedNumber.zero_defined
      · exact (Double.isUndefined_eq_false_iff x).mpr hdefined

/-- Whether the step from a point leads to a value no further from zero. -/
def keepsAccuracy (e : Expr α) (point : NameMap α) : Bool :=
  match valueAt e point, valueAt e (descend e point) with
  | .ok value, .ok next => Number.atMost (Number.abs next) (Number.abs value)
  | _, _ => true

/-- The best value of a search is finite, if there is one. -/
def Search.BestFinite (search : Search α) : Prop :=
  ∀ value, search.best = some value → Number.isFinite value = true

theorem Search.BestFinite.consider {seen : Search α} (h : seen.BestFinite) (e : Expr α)
    (candidate : NameMap α) : (consider e seen candidate).BestFinite := by
  unfold Solver.consider
  split
  · split
    · rename_i value _ hbetter
      intro best hbest
      rw [← Option.some_inj.mp hbest]
      unfold isBetter at hbetter
      exact (Bool.and_eq_true_iff.mp hbetter).1
    · exact h
  · exact h

theorem search_bestFinite (solver : Solver α) (e : Expr α) (names : List String) :
    (solver.search e names).BestFinite := by
  have hfirst : (⟨NameMap.ofList (names.map fun name => (name, (solver.low : α))), none, none⟩ :
      Search α).BestFinite := fun _ h => by cases h
  refine List.foldlRecOn names _ (hfirst.consider e _) fun swept hswept name _ => ?_
  exact List.foldlRecOn _ _ hswept fun seen hseen n _ => hseen.consider e _

theorem startingPoint_finite {solver : Solver α} {e : Expr α} {names : List String}
    {start : NameMap α} {value : α} (h : solver.startingPoint e names = .ok (start, value)) :
    Number.isFinite value = true := by
  unfold startingPoint at h
  dsimp only at h
  split at h
  · rename_i best hbest
    obtain ⟨-, rfl⟩ := Prod.mk.inj (Except.ok.inj h)
    exact search_bestFinite solver e names _ hbest
  · cases h
  · cases h

section Accuracy

variable {e : Expr α} {start : NameMap α} {value last epsilon : α} {iterations steps : Nat}

/-- No point of a run is one without a finite value. -/
theorem orbit_hasFiniteValue (hstart : HasFiniteValue e start)
    (h : ∀ k < steps, ¬ Stops epsilon iterations e start k) :
    HasFiniteValue e (orbit e start steps) := by
  cases steps with
  | zero => exact hstart
  | succ k =>
    by_contra hdiverges
    exact h k (Nat.lt_succ_self k) (.diverges hdiverges)

theorem HasFiniteValue.abs_defined [DefinedMagnitudes α] (h : HasFiniteValue e start)
    (hvalue : valueAt e start = .ok value) : Number.isUndefined (Number.abs value) = false := by
  obtain ⟨x, hx, hfinite⟩ := h
  obtain rfl := Except.ok.inj (hx.symm.trans hvalue)
  exact DefinedMagnitudes.abs_defined x hfinite

variable [OrderedNumber α] [DefinedMagnitudes α]

/-- **Steps that each keep the accuracy keep it together.** -/
theorem abs_orbit_le (hfinite : ∀ k ≤ steps, HasFiniteValue e (orbit e start k))
    (hkeeps : ∀ k < steps, keepsAccuracy e (orbit e start k) = true)
    (hvalue : valueAt e start = .ok value) (hlast : valueAt e (orbit e start steps) = .ok last) :
    Number.atMost (Number.abs last) (Number.abs value) = true := by
  induction steps generalizing last with
  | zero =>
    obtain rfl := Except.ok.inj (hvalue.symm.trans hlast)
    have hdefined := (hfinite 0 le_rfl).abs_defined hvalue
    rw [Number.atMost_iff_not_lt hdefined hdefined]
    exact fun h => OrderedNumber.lt_asymm _ _ h h
  | succ k ih =>
    obtain ⟨before, hbefore, -⟩ := hfinite k (Nat.le_succ k)
    have hstep := hkeeps k (Nat.lt_succ_self k)
    rw [keepsAccuracy, ← orbit_succ, hbefore, hlast] at hstep
    have hrest := ih (fun j hj => hfinite j (hj.trans (Nat.le_succ k)))
      (fun j hj => hkeeps j (hj.trans (Nat.lt_succ_self k))) hbefore
    exact Number.atMost_trans hstep hrest ((hfinite (k + 1) le_rfl).abs_defined hlast)
      ((hfinite k (Nat.le_succ k)).abs_defined hbefore)
      ((hfinite 0 (Nat.zero_le _)).abs_defined hvalue)

end Accuracy

/-- **Iterating does not lose accuracy where it succeeds**, and otherwise not if no step does.
An expression that is solved by search is solved with any number of iterations, and with none at
all its root is the best point of the search.  The residual after a run is at most the one there
if it is below epsilon, or if no step of the run leads further from zero. -/
theorem solve_iterations [OrderedNumber α] [DefinedMagnitudes α] {solver : Solver α} {e : Expr α}
    {roots : List (Root α)} (h : closedForm? e.simplify = none)
    (hsolve : solver.solve e = .ok roots) (iterations : Nat) :
    ∃ start value steps last,
      solver.startingPoint e.simplify e.simplify.variableNames = .ok (start, value) ∧
        solve { solver with maxIterations := 0 } e
          = .ok [⟨Vector.ofNumbers start, Number.abs value⟩] ∧
        IsLeast {k | Stops solver.epsilon iterations e.simplify start k} steps ∧
        solve { solver with maxIterations := iterations } e
          = .ok [⟨Vector.ofNumbers (orbit e.simplify start steps), Number.abs last⟩] ∧
        (Number.abs last < solver.epsilon ∨
            (∀ k < steps, keepsAccuracy e.simplify (orbit e.simplify start k) = true) →
          Number.atMost (Number.abs last) (Number.abs value) = true) := by
  rw [solve_of_closedForm?_eq_none h] at hsolve
  obtain ⟨root, hroot, -⟩ := map_eq_ok_iff.mp hsolve
  obtain ⟨⟨start, value⟩, hstart, -⟩ := map_eq_ok_iff.mp hroot
  have hvalue : valueAt e.simplify start = .ok value := (startingPoint_found hstart).value_eq
  -- how many iterations are allowed makes no difference to the search
  have hrun : ∀ m, ∃ found, Ends solver.epsilon m e.simplify start found ∧
      solve { solver with maxIterations := m } e
        = .ok [⟨Vector.ofNumbers found.1, Number.abs found.2⟩] := fun m =>
    solve_ends { solver with maxIterations := m } h hstart
  obtain ⟨⟨_, first⟩, ⟨none, hnone, rfl, hfirst⟩, hseed⟩ := hrun 0
  obtain ⟨⟨_, last⟩, ⟨steps, hleast, rfl, hlast⟩, hanswer⟩ := hrun iterations
  obtain rfl : none = 0 := Nat.le_zero.mp (hnone.2 (.usedUp rfl))
  obtain rfl := Except.ok.inj (hvalue.symm.trans hfirst)
  refine ⟨start, value, steps, last, hstart, hseed, hleast, hanswer, fun haccurate => ?_⟩
  have hfinite : ∀ k ≤ steps, HasFiniteValue e.simplify (orbit e.simplify start k) :=
    fun k hk => orbit_hasFiniteValue ⟨value, hvalue, startingPoint_finite hstart⟩ fun j hj hstop =>
      absurd (hleast.2 hstop) (not_le.mpr (hj.trans_le hk))
  by_cases hsmall : Number.abs value < solver.epsilon
  · -- the first point is a reason to stop, and no step is taken
    obtain rfl : steps = 0 := Nat.le_zero.mp (hleast.2 (.small hvalue hsmall))
    exact abs_orbit_le hfinite (fun k hk => absurd hk (Nat.not_lt_zero k)) hvalue hlast
  · rcases haccurate with hbelow | hkeeps
    · rw [Number.atMost_iff_not_lt ((hfinite steps le_rfl).abs_defined hlast)
        ((hfinite 0 (Nat.zero_le _)).abs_defined hvalue)]
      exact fun hlt => hsmall (OrderedNumber.lt_trans _ _ _ hlt hbelow)
    · exact abs_orbit_le hfinite hkeeps hvalue hlast

/-- Half the sum minus a third, with any number of iterations. -/
theorem solve_iterations_plane :
    let e : Expr ℚ := .sum [Term.ofPowers (1 / 2) [("x", 1)], Term.ofPowers (1 / 2) [("y", 1)],
      Term.ofNumber (-1 / 3)]
    let solver : Solver ℚ := ⟨Number.tolerance, 100, 0, 1⟩
    (closedForm? e.simplify = none ∧ ∃ roots, solver.solve e = .ok roots) ∧
      ∀ iterations, ∃ start value steps last,
        solver.startingPoint e.simplify e.simplify.variableNames = .ok (start, value) ∧
          solve { solver with maxIterations := 0 } e
            = .ok [⟨Vector.ofNumbers start, Number.abs value⟩] ∧
          IsLeast {k | Stops solver.epsilon iterations e.simplify start k} steps ∧
          solve { solver with maxIterations := iterations } e
            = .ok [⟨Vector.ofNumbers (orbit e.simplify start steps), Number.abs last⟩] ∧
          (Number.abs last < solver.epsilon ∨
              (∀ k < steps, keepsAccuracy e.simplify (orbit e.simplify start k) = true) →
            Number.atMost (Number.abs last) (Number.abs value) = true) := by
  intro e solver
  have hformula : closedForm? e.simplify = none :=
    Option.isNone_iff_eq_none.mp (by decide +kernel)
  have hsome : (solver.solve e).toOption.isSome = true := by
    decide +kernel
  obtain ⟨roots, hsolve⟩ := exists_eq_ok_of_isSome hsome
  exact ⟨⟨hformula, roots, hsolve⟩, solve_iterations hformula hsolve⟩

/-- **A step may lead further from zero.**  The whole number closest to a zero of the cube minus
two is one, and the first step from there goes to two. -/
theorem solve_cube_root :
    let e : Expr ℚ := .sum [Term.ofPowers 1 [("x", 3)], Term.ofNumber (-2)]
    closedForm? e.simplify = none ∧ ∃ first last,
      solve { standard with maxIterations := 0 } e = .ok [first] ∧
        solve { standard with maxIterations := 1 } e = .ok [last] ∧
        first.residual < last.residual := by
  intro e
  have hrun : ∀ iterations r,
      List.map Root.residual <$> solve { standard with maxIterations := iterations } e = .ok [r] →
        ∃ root, solve { standard with maxIterations := iterations } e = .ok [root] ∧
          root.residual = r := by
    intro iterations r h
    obtain ⟨roots, hroots, hresidual⟩ := map_eq_ok_iff.mp h
    obtain ⟨root, rfl, heq⟩ := List.map_eq_singleton_iff.mp hresidual
    exact ⟨root, hroots, heq⟩
  obtain ⟨first, hfirst, hone⟩ := hrun 0 1 (by decide +kernel)
  obtain ⟨last, hlast, hsix⟩ := hrun 1 6 (by decide +kernel)
  refine ⟨Option.isNone_iff_eq_none.mp (by decide +kernel), first, last, hfirst, hlast, ?_⟩
  rw [hone, hsix]
  norm_num

end PolyAlgebra.Solver
