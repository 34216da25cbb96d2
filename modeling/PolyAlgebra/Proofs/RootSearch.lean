/-
What a search for a root keeps.

From the first point to the last, a search holds a value for each variable of the expression and
for no other name, and the value it holds beside the point is the one the expression has there.
Sweeping keeps this because it only replaces the coordinate of a variable (`sweep_sound`), and
iterating because it only changes the numbers (`iterate_found`).  So the one root that a search
ends with comes with the absolute value of the expression at its point
(`solveIteratively_found`), however far it may be from zero.

Nothing is assumed of the numbers.
-/
import Mathlib
import PolyAlgebra.Proofs.NameMap
import PolyAlgebra.Proofs.Outcome
import PolyAlgebra.Solver

namespace PolyAlgebra

variable {α : Type}

/-! ### Points -/

/-- A value is filed under each of the names, and under no other. -/
def NameMap.Covers (point : NameMap α) (names : List String) : Prop :=
  ∀ name, name ∈ point.names ↔ name ∈ names

namespace NameMap

variable {point : NameMap α} {names : List String}

/-- Changing one coordinate. -/
theorem Covers.insert (h : point.Covers names) {name : String} (hname : name ∈ names) (x : α) :
    (point.insert name x).Covers names := by
  intro other
  rw [mem_names_iff, get?_insert, ← h other, mem_names_iff]
  by_cases hother : other = name
  · subst hother
    simpa using (mem_names_iff _ _).mp ((h other).mpr hname)
  · rw [if_neg hother]

/-- Changing all coordinates. -/
theorem Covers.map (h : point.Covers names) (f : α → α) : (point.map f).Covers names := by
  intro name
  rw [← h name, mem_names_iff, mem_names_iff, get?_map]
  cases point.get? name <;> simp

theorem covers_ofList (names : List String) (x : α) :
    (ofList (names.map fun name => (name, x))).Covers names := by
  intro name
  rw [mem_names_ofList]
  simp

theorem covers_insert_empty (name : String) (x : α) :
    ((empty : NameMap α).insert name x).Covers [name] := by
  intro other
  rw [mem_names_iff, get?_insert, List.mem_singleton]
  by_cases hother : other = name <;> simp [hother]

end NameMap

namespace Solver

variable [Number α]

/-- A point for the variables, and the value that the expression has there. -/
structure Found (e : Expr α) (names : List String) (point : NameMap α) (value : α) : Prop where
  covers : point.Covers names
  value_eq : valueAt e point = .ok value

/-! ### Whole numbers -/

/-- The point of a search covers the variables, and the best value is the one there. -/
structure Search.Sound (e : Expr α) (names : List String) (search : Search α) : Prop where
  covers : search.point.Covers names
  best : ∀ value, search.best = some value → valueAt e search.point = .ok value

section Sweeping

variable {e : Expr α} {names : List String}

theorem consider_sound {search : Search α} (h : search.Sound e names) {candidate : NameMap α}
    (hcandidate : candidate.Covers names) : (consider e search candidate).Sound e names := by
  unfold consider
  split
  · rename_i value hvalue
    split
    · refine ⟨hcandidate, fun best hbest => ?_⟩
      rw [← Option.some_inj.mp hbest]
      exact hvalue
    · exact h
  · exact ⟨h.covers, h.best⟩

theorem foldl_consider_sound {ns : List Int} {candidate : Int → NameMap α}
    (hcandidate : ∀ n, (candidate n).Covers names) {search : Search α}
    (h : search.Sound e names) :
    (ns.foldl (fun seen n => consider e seen (candidate n)) search).Sound e names := by
  induction ns generalizing search with
  | nil => exact h
  | cons n rest ih => exact ih (consider_sound h (hcandidate n))

/-- Sweeping one variable keeps the others. -/
theorem sweep_sound (solver : Solver α) {search : Search α} (h : search.Sound e names)
    {name : String} (hname : name ∈ names) : (sweep solver e search name).Sound e names :=
  foldl_consider_sound (fun _ => h.covers.insert hname _) h

/-- **The value held after all sweeps is the value at the point held.** -/
theorem search_sound (solver : Solver α) (e : Expr α) (names : List String) :
    (solver.search e names).Sound e names := by
  have key : ∀ (swept : List String) (search : Search α), (∀ name ∈ swept, name ∈ names) →
      search.Sound e names → (swept.foldl (sweep solver e) search).Sound e names := by
    intro swept
    induction swept with
    | nil => intro search _ h; exact h
    | cons name rest ih =>
      intro search hswept h
      obtain ⟨hname, hrest⟩ := List.forall_mem_cons.mp hswept
      exact ih _ hrest (sweep_sound solver h hname)
  have hfirst := NameMap.covers_ofList names (solver.low : α)
  exact key names _ (fun _ h => h) (consider_sound ⟨hfirst, fun _ h => by cases h⟩ hfirst)

theorem startingPoint_found {solver : Solver α} {start : NameMap α × α}
    (h : solver.startingPoint e names = .ok start) : Found e names start.1 start.2 := by
  have hsound := search_sound solver e names
  unfold startingPoint at h
  dsimp only at h
  split at h
  · rename_i value hbest
    obtain rfl := Except.ok.inj h
    exact ⟨hsound.covers, hsound.best value hbest⟩
  · cases h
  · cases h

/-! ### Iterating -/

/-- **Every point on the way is one at which the expression has the value held.** -/
theorem iterate_found (epsilon : α) (iterations : Nat) {found : NameMap α × α}
    (h : Found e names found.1 found.2) :
    Found e names (iterate e epsilon iterations found).1
      (iterate e epsilon iterations found).2 := by
  induction iterations generalizing found with
  | zero => exact h
  | succ iterations ih =>
    obtain ⟨point, value⟩ := found
    rw [iterate]
    split
    · exact h
    · dsimp only
      split
      · rename_i nextValue hnext
        split
        · exact ih ⟨h.covers.map _, hnext⟩
        · exact h
      · exact h

theorem solveIteratively_found {solver : Solver α} {root : Root α}
    (h : solver.solveIteratively e names = .ok root) :
    ∃ point value, Found e names point value ∧
      root = ⟨Vector.ofNumbers point, Number.abs value⟩ := by
  obtain ⟨start, hstart, rfl⟩ := map_eq_ok_iff.mp h
  exact ⟨_, _, iterate_found _ _ (startingPoint_found hstart), rfl⟩

end Sweeping

end Solver

end PolyAlgebra
