/-
What the search over whole numbers finds.

A search looks at one point after the other and holds on to a point until it meets a better one,
where better means strictly closer to zero.  So what it holds in the end is the first of the best
points (`foldl_consider_cases`), and that is all that has to be known of looking at points.

It is used twice.  Along the line that one sweep goes through, the first of the best points is the
one with the smallest whole number (`sweep_sweepsTo`).  Here the lowest number needs care: the
search has been at that point before, and does not move there.  And over the whole search, whose
points are those of all sweeps (`foldl_sweep`), it is the seed.

Absolute values of finite numbers are compared, so these must be defined and ordered; nothing else
is assumed of the numbers, and the expression may fail or be infinite at any point.
-/
import Mathlib
import PolyAlgebra.Proofs.Iteration
import PolyAlgebra.Proofs.Leaves

namespace PolyAlgebra

variable {α : Type}

/-! ### Points and whole numbers -/

namespace NameMap

/-- Filing a value where it is already changes nothing. -/
theorem insert_eq_self {m : NameMap α} {name : String} {x : α} (h : m.get? name = some x) :
    m.insert name x = m := by
  refine ext fun other => ?_
  rw [get?_insert]
  split
  · rename_i hother
    rw [hother, h]
  · rfl

theorem get?_ofList_const {names : List String} {name : String} (h : name ∈ names) (x : α) :
    (ofList (names.map fun name => (name, x))).get? name = some x := by
  obtain ⟨y, hy⟩ := (mem_names_iff _ _).mp ((covers_ofList names x name).mpr h)
  obtain ⟨_, -, heq⟩ := List.mem_map.mp (mem_of_get?_ofList hy)
  rw [hy, (Prod.mk.inj heq).2]

end NameMap

namespace Solver

theorem mem_wholeNumbers {low high n : Int} : n ∈ wholeNumbers low high ↔ low ≤ n ∧ n ≤ high := by
  rw [wholeNumbers, List.mem_map]
  constructor
  · rintro ⟨k, hk, rfl⟩
    have := List.mem_range.mp hk
    omega
  · rintro ⟨hlow, hhigh⟩
    exact ⟨(n - low).toNat, List.mem_range.mpr (by omega), by omega⟩

theorem wholeNumbers_rising (low high : Int) : (wholeNumbers low high).Pairwise (· < ·) :=
  List.pairwise_map.mpr (List.pairwise_lt_range.imp fun h => by omega)

variable [Number α] {e : Expr α}

/-! ### Looking at points -/

/-- The expression has this value at a point, and it is finite. -/
def FiniteAt (e : Expr α) (point : NameMap α) (value : α) : Prop :=
  valueAt e point = .ok value ∧ Number.isFinite value = true

/-- How the evaluation at a point fails, if it does. -/
def failure? (e : Expr α) (point : NameMap α) : Option EvalError :=
  match valueAt e point with
  | .ok _ => none
  | .error error => some error

/-- The failures at the points, in order. -/
def failures (e : Expr α) (points : List (NameMap α)) : List EvalError :=
  points.filterMap (failure? e)

theorem isBetter_none (value : α) : isBetter value none = Number.isFinite value := by
  rw [isBetter, Bool.and_true]

theorem isBetter_some_iff {value best : α} (h : Number.isFinite value = true) :
    isBetter value (some best) = true ↔ Number.abs value < Number.abs best := by
  rw [isBetter, h, Bool.true_and, decide_eq_true_iff]

/-- **What looking at one point can do**: the point is better and is held from now on, or it is
not and what was held stays. -/
theorem consider_cases (e : Expr α) (search : Search α) (point : NameMap α) :
    (∃ value, FiniteAt e point value ∧ isBetter value search.best = true ∧
        (consider e search point).point = point ∧
        (consider e search point).best = some value) ∨
      (∀ value, FiniteAt e point value → isBetter value search.best = false) ∧
        (consider e search point).point = search.point ∧
        (consider e search point).best = search.best := by
  unfold consider
  split
  · rename_i value hvalue
    by_cases hbetter : isBetter value search.best = true
    · rw [if_pos hbetter]
      have hfinite : Number.isFinite value = true := (Bool.and_eq_true_iff.mp hbetter).1
      exact .inl ⟨value, ⟨hvalue, hfinite⟩, hbetter, rfl, rfl⟩
    · rw [if_neg hbetter]
      refine .inr ⟨fun other hother => ?_, rfl, rfl⟩
      obtain rfl := Except.ok.inj (hvalue.symm.trans hother.1)
      exact Bool.eq_false_iff.mpr hbetter
  · rename_i error herror
    refine .inr ⟨fun value hvalue => ?_, rfl, rfl⟩
    cases herror.symm.trans hvalue.1

theorem consider_failure (e : Expr α) (search : Search α) (point : NameMap α) :
    (consider e search point).failure = (failure? e point).or search.failure := by
  unfold consider failure?
  cases valueAt e point with
  | ok value =>
    dsimp only
    split <;> rfl
  | error error => rfl

/-- The failure that is held is the last one. -/
theorem foldl_consider_failure (points : List (NameMap α)) (search : Search α) :
    (points.foldl (consider e) search).failure
      = (failures e points).getLast?.or search.failure := by
  induction points generalizing search with
  | nil => rfl
  | cons point rest ih =>
    rw [List.foldl_cons, ih, consider_failure, failures, failures, List.filterMap_cons]
    cases failure? e point with
    | none => rfl
    | some error =>
      rw [List.getLast?_cons]
      cases (rest.filterMap (failure? e)).getLast? <;> rfl

section FirstBest

variable {ι : Type}

/-- Of the points of a list, split at `n`, the one at `n` is the first that is closest to zero, and
it is better than what was held. -/
structure IsFirstBest (e : Expr α) (candidate : ι → NameMap α) (best : Option α)
    (before : List ι) (n : ι) (after : List ι) (value : α) : Prop where
  finiteAt : FiniteAt e (candidate n) value
  better : isBetter value best = true
  lt_before : ∀ k ∈ before, ∀ other, FiniteAt e (candidate k) other →
    Number.abs value < Number.abs other
  atMost_after : ∀ k ∈ after, ∀ other, FiniteAt e (candidate k) other →
    Number.atMost (Number.abs value) (Number.abs other) = true

variable [OrderedNumber α] [DefinedMagnitudes α] {candidate : ι → NameMap α}

/-- A finite value that is not better than another is no closer to zero. -/
theorem atMost_of_not_better {value best : α} (hvalue : Number.isFinite value = true)
    (hbest : Number.isFinite best = true) (h : isBetter value (some best) = false) :
    Number.atMost (Number.abs best) (Number.abs value) = true := by
  rw [Number.atMost_iff_not_lt (DefinedMagnitudes.abs_defined best hbest)
    (DefinedMagnitudes.abs_defined value hvalue), ← isBetter_some_iff hvalue, h]
  exact Bool.false_ne_true

theorem IsFirstBest.atMost {best : Option α} {before after : List ι} {n : ι} {value : α}
    (h : IsFirstBest e candidate best before n after value) :
    ∀ k ∈ before ++ n :: after, ∀ other, FiniteAt e (candidate k) other →
      Number.atMost (Number.abs value) (Number.abs other) = true := by
  intro k hk other hother
  rcases List.mem_append.mp hk with hk | hk
  · rw [Number.atMost, decide_eq_true (h.lt_before k hk other hother), Bool.true_or]
  · rcases List.mem_cons.mp hk with rfl | hk
    · obtain rfl := Except.ok.inj (h.finiteAt.1.symm.trans hother.1)
      have hdefined := DefinedMagnitudes.abs_defined value hother.2
      rw [Number.atMost_iff_not_lt hdefined hdefined]
      exact fun hlt => OrderedNumber.lt_asymm _ _ hlt hlt
    · exact h.atMost_after k hk other hother

/-- What is better than something is closer to zero than all that is not. -/
theorem lt_of_better {best : Option α} {value other : α}
    (hbest : ∀ b, best = some b → Number.isFinite b = true)
    (hvalue : isBetter value best = true) (hother : Number.isFinite other = true)
    (h : isBetter other best = false) : Number.abs value < Number.abs other := by
  have hfinite : Number.isFinite value = true := (Bool.and_eq_true_iff.mp hvalue).1
  cases best with
  | none =>
    rw [isBetter_none, hother] at h
    cases h
  | some best =>
    exact Number.lt_of_lt_of_atMost ((isBetter_some_iff hfinite).mp hvalue)
      (atMost_of_not_better hother (hbest best rfl) h)
      (DefinedMagnitudes.abs_defined value hfinite) (DefinedMagnitudes.abs_defined other hother)

/-- **A search holds the first of the best points**, or what it held before if none is better. -/
theorem foldl_consider_cases (candidate : ι → NameMap α) (ns : List ι) {search : Search α}
    (hfinite : search.BestFinite) :
    (∃ before n after value, ns = before ++ n :: after ∧
        IsFirstBest e candidate search.best before n after value ∧
        (ns.foldl (fun seen n => consider e seen (candidate n)) search).point = candidate n ∧
        (ns.foldl (fun seen n => consider e seen (candidate n)) search).best = some value) ∨
      (∀ n ∈ ns, ∀ value, FiniteAt e (candidate n) value →
          isBetter value search.best = false) ∧
        (ns.foldl (fun seen n => consider e seen (candidate n)) search).point = search.point ∧
        (ns.foldl (fun seen n => consider e seen (candidate n)) search).best = search.best := by
  induction ns generalizing search with
  | nil => exact .inr ⟨List.forall_mem_nil _, rfl, rfl⟩
  | cons n rest ih =>
    rw [List.foldl_cons]
    have hnext := ih (hfinite.consider e (candidate n))
    rcases consider_cases e search (candidate n) with
      ⟨value, hvalue, hbetter, hpoint, hbest⟩ | ⟨hworse, hpoint, hbest⟩
    · -- the point is better, so it is the first best one unless a later one is better still
      rw [hpoint, hbest] at hnext
      refine .inl ?_
      rcases hnext with ⟨before, m, after, v, rfl, hfirst, hend⟩ | ⟨hrest, hend⟩
      · have hlt := (isBetter_some_iff hfirst.finiteAt.2).mp hfirst.better
        refine ⟨n :: before, m, after, v, rfl, ⟨hfirst.finiteAt, ?_, ?_, hfirst.atMost_after⟩, hend⟩
        · cases hold : search.best with
          | none => rw [isBetter_none, hfirst.finiteAt.2]
          | some b =>
            rw [hold] at hbetter
            exact (isBetter_some_iff hfirst.finiteAt.2).mpr
              (OrderedNumber.lt_trans _ _ _ hlt ((isBetter_some_iff hvalue.2).mp hbetter))
        · refine List.forall_mem_cons.mpr ⟨fun other hother => ?_, hfirst.lt_before⟩
          obtain rfl := Except.ok.inj (hvalue.1.symm.trans hother.1)
          exact hlt
      · exact ⟨[], n, rest, value, rfl, ⟨hvalue, hbetter, List.forall_mem_nil _,
          fun k hk other hother =>
            atMost_of_not_better hother.2 hvalue.2 (hrest k hk other hother)⟩, hend⟩
    · -- the point is not better, so it is further from zero than one that is
      rw [hpoint, hbest] at hnext
      rcases hnext with ⟨before, m, after, v, rfl, hfirst, hend⟩ | ⟨hrest, hend⟩
      · refine .inl ⟨n :: before, m, after, v, rfl,
          ⟨hfirst.finiteAt, hfirst.better, ?_, hfirst.atMost_after⟩, hend⟩
        exact List.forall_mem_cons.mpr ⟨fun other hother =>
          lt_of_better hfinite hfirst.better hother.2 (hworse other hother), hfirst.lt_before⟩
      · exact .inr ⟨List.forall_mem_cons.mpr ⟨hworse, hrest⟩, hend⟩

end FirstBest

/-! ### Sweeping -/

/-- The points that a sweep of one variable looks at, in order. -/
def line (solver : Solver α) (point : NameMap α) (name : String) : List (NameMap α) :=
  (wholeNumbers solver.low solver.high).map fun n : Int => point.insert name (n : α)

/-- A whole number of the range with a finite value that no finite value on the line is closer to
zero than. -/
structure ClosestOnLine (solver : Solver α) (e : Expr α) (point : NameMap α) (name : String)
    (n : Int) : Prop where
  low_le : solver.low ≤ n
  le_high : n ≤ solver.high
  closest : ∃ value, FiniteAt e (point.insert name (n : α)) value ∧
    ∀ (k : Int) (other : α), solver.low ≤ k → k ≤ solver.high →
      FiniteAt e (point.insert name (k : α)) other →
      Number.atMost (Number.abs value) (Number.abs other) = true

/-- What sweeping one variable makes of a point: the coordinate becomes the smallest whole number
that is closest to a zero, and the point stays if there is no finite value on the line. -/
inductive SweepsTo (solver : Solver α) (e : Expr α) (point : NameMap α) (name : String) :
    NameMap α → Prop
  | closest {n : Int} (h : IsLeast {k | ClosestOnLine solver e point name k} n) :
      SweepsTo solver e point name (point.insert name (n : α))
  | stays (h : ∀ n : Int, solver.low ≤ n → n ≤ solver.high →
      ¬ HasFiniteValue e (point.insert name (n : α))) : SweepsTo solver e point name point

/-- Sweeping one variable after the other from a point, with the points that are looked at on the
way and the point that is reached. -/
inductive Sweeps (solver : Solver α) (e : Expr α) :
    List String → NameMap α → List (NameMap α) → NameMap α → Prop
  | nil (point : NameMap α) : Sweeps solver e [] point [] point
  | cons {name : String} {rest : List String} {point next last : NameMap α}
      {looked : List (NameMap α)} (h : SweepsTo solver e point name next)
      (hrest : Sweeps solver e rest next looked last) :
      Sweeps solver e (name :: rest) point (line solver point name ++ looked) last

theorem line_eq_nil {solver : Solver α} (h : solver.high < solver.low) (point : NameMap α)
    (name : String) : line solver point name = [] := by
  have hnone : wholeNumbers solver.low solver.high = [] :=
    List.eq_nil_iff_forall_not_mem.mpr fun n hn => by
      have := mem_wholeNumbers.mp hn
      omega
  rw [line, hnone, List.map_nil]

/-- Nothing but the first point is looked at if there are no variables or no whole numbers. -/
theorem Sweeps.looked_eq_nil {solver : Solver α} {names : List String} {point last : NameMap α}
    {looked : List (NameMap α)} (h : Sweeps solver e names point looked last)
    (hnone : solver.high < solver.low ∨ names = []) : looked = [] := by
  induction h with
  | nil => rfl
  | cons _ _ ih =>
    rcases hnone with hrange | hnames
    · rw [line_eq_nil hrange, ih (.inl hrange), List.append_nil]
    · cases hnames

theorem sweep_eq_foldl (solver : Solver α) (e : Expr α) (search : Search α) (name : String) :
    sweep solver e search name = (line solver search.point name).foldl (consider e) search := by
  rw [sweep, line, List.foldl_map]

/-- A sweep changes no other coordinate. -/
theorem SweepsTo.get?_eq {solver : Solver α} {point next : NameMap α} {name other : String}
    (h : SweepsTo solver e point name next) (hne : other ≠ name) :
    next.get? other = point.get? other := by
  cases h with
  | closest h => rw [NameMap.get?_insert, if_neg hne]
  | stays h => rfl

section Sweeping

variable [OrderedNumber α] [DefinedMagnitudes α] {solver : Solver α}

/-- The first best point of a line is the one with the smallest number. -/
theorem IsFirstBest.isLeast {point : NameMap α} {name : String} {best : Option α}
    {before after : List Int} {n : Int} {value : α}
    (h : IsFirstBest e (fun k : Int => point.insert name (k : α)) best before n after value)
    (hsplit : wholeNumbers solver.low solver.high = before ++ n :: after) :
    IsLeast {k | ClosestOnLine solver e point name k} n := by
  have hmem : ∀ k, k ∈ before ++ n :: after ↔ solver.low ≤ k ∧ k ≤ solver.high := fun k => by
    rw [← hsplit, mem_wholeNumbers]
  have hn := (hmem n).mp (by simp)
  refine ⟨⟨hn.1, hn.2, value, h.finiteAt, fun k other hk hk' hother =>
    h.atMost k ((hmem k).mpr ⟨hk, hk'⟩) other hother⟩, fun k hk => ?_⟩
  by_contra hlt
  -- a smaller number stands before `n` on the line, where all values are further from zero
  have hbefore : k ∈ before := by
    have hrising := wholeNumbers_rising solver.low solver.high
    rw [hsplit] at hrising
    have hafter := (List.pairwise_cons.mp (List.pairwise_append.mp hrising).2.1).1
    rcases List.mem_append.mp ((hmem k).mpr ⟨hk.low_le, hk.le_high⟩) with hk | hk
    · exact hk
    · rcases List.mem_cons.mp hk with rfl | hk
      · exact absurd le_rfl hlt
      · exact absurd (hafter k hk).le hlt
  obtain ⟨other, hother, hclosest⟩ := hk.closest
  have hle := hclosest n value hn.1 hn.2 h.finiteAt
  rw [Number.atMost_iff_not_lt (DefinedMagnitudes.abs_defined other hother.2)
    (DefinedMagnitudes.abs_defined value h.finiteAt.2)] at hle
  exact hle (h.lt_before k hbefore other hother)

/-- Where nothing on the line is better than what is held, a sweep stays at the lowest number. -/
theorem sweepsTo_self {search : Search α} {name : String}
    (hbest : ∀ value, search.best = some value → FiniteAt e search.point value)
    (hlow : search.point.get? name = some (solver.low : α))
    (hworse : ∀ n ∈ wholeNumbers solver.low solver.high, ∀ value,
      FiniteAt e (search.point.insert name (n : α)) value → isBetter value search.best = false) :
    SweepsTo solver e search.point name search.point := by
  by_cases hrange : solver.low ≤ solver.high
  · cases hheld : search.best with
    | none =>
      -- anything finite would have been better than nothing
      refine .stays fun n hn hn' ⟨value, hvalue⟩ => ?_
      have hnot := hworse n (mem_wholeNumbers.mpr ⟨hn, hn'⟩) value hvalue
      rw [hheld, isBetter_none, hvalue.2] at hnot
      cases hnot
    | some best =>
      have hself : search.point.insert name (solver.low : α) = search.point :=
        NameMap.insert_eq_self hlow
      have hfinite := hbest best hheld
      have hleast : IsLeast {k | ClosestOnLine solver e search.point name k} solver.low := by
        refine ⟨⟨le_rfl, hrange, best, hself.symm ▸ hfinite, fun k other hk hk' hother => ?_⟩,
          fun k hk => hk.low_le⟩
        exact atMost_of_not_better hother.2 hfinite.2
          (hheld ▸ hworse k (mem_wholeNumbers.mpr ⟨hk, hk'⟩) other hother)
      have hclosest := SweepsTo.closest hleast
      rwa [hself] at hclosest
  · exact .stays fun n hn hn' => absurd (hn.trans hn') hrange

/-- **A sweep leads to the smallest whole number closest to a zero.**  Before it the variable has
the lowest number, so a value that is held already is the one at the beginning of the line. -/
theorem sweep_sweepsTo {search : Search α} {name : String}
    (hbest : ∀ value, search.best = some value → FiniteAt e search.point value)
    (hlow : search.point.get? name = some (solver.low : α)) :
    SweepsTo solver e search.point name (sweep solver e search name).point := by
  rw [sweep]
  rcases foldl_consider_cases (e := e) (fun n : Int => search.point.insert name (n : α))
      (wholeNumbers solver.low solver.high) (fun value h => (hbest value h).2) with
    ⟨before, n, after, value, hsplit, hfirst, hpoint, -⟩ | ⟨hworse, hpoint, -⟩
  · rw [hpoint]
    exact .closest (hfirst.isLeast hsplit)
  · rw [hpoint]
    exact sweepsTo_self hbest hlow hworse

/-- **A search looks at the points of its sweeps**, and each sweep goes on from the best point so
far. -/
theorem foldl_sweep (solver : Solver α) {names swept : List String} {search : Search α}
    (hnodup : swept.Nodup) (hswept : ∀ name ∈ swept, name ∈ names)
    (hsound : search.Sound e names) (hfinite : search.BestFinite)
    (hlow : ∀ name ∈ swept, search.point.get? name = some (solver.low : α)) :
    ∃ looked,
      Sweeps solver e swept search.point looked (swept.foldl (sweep solver e) search).point ∧
        swept.foldl (sweep solver e) search = looked.foldl (consider e) search := by
  induction swept generalizing search with
  | nil => exact ⟨[], .nil _, rfl⟩
  | cons name rest ih =>
    obtain ⟨hname, hrest⟩ := List.forall_mem_cons.mp hswept
    obtain ⟨hlowest, hlowrest⟩ := List.forall_mem_cons.mp hlow
    obtain ⟨hnew, hnodup⟩ := List.nodup_cons.mp hnodup
    have hsweep := sweep_sweepsTo (e := e)
      (fun value h => ⟨hsound.best value h, hfinite value h⟩) hlowest
    have hnext : (sweep solver e search name).BestFinite :=
      List.foldlRecOn _ _ hfinite fun seen hseen n _ => hseen.consider e _
    obtain ⟨looked, hsweeps, heq⟩ := ih hnodup hrest (sweep_sound solver hsound hname) hnext
      fun other hother => by
        rw [hsweep.get?_eq (ne_of_mem_of_not_mem hother hnew), hlowrest other hother]
    refine ⟨line solver search.point name ++ looked, .cons hsweep hsweeps, ?_⟩
    rw [List.foldl_cons, heq, List.foldl_append, sweep_eq_foldl]

end Sweeping

/-! ### The seed -/

/-- The point with the lowest number for every variable. -/
def lowest (solver : Solver α) (names : List String) : NameMap α :=
  NameMap.ofList (names.map fun name => (name, (solver.low : α)))

theorem nothing_bestFinite (point : NameMap α) :
    Search.BestFinite (⟨point, none, none⟩ : Search α) := fun _ h => by cases h

section Seed

variable [OrderedNumber α] [DefinedMagnitudes α] {solver : Solver α} {names : List String}

theorem search_eq_foldl (solver : Solver α) (e : Expr α) (hnodup : names.Nodup) :
    ∃ looked, Sweeps solver e names (lowest solver names) looked (solver.search e names).point ∧
      solver.search e names = (lowest solver names :: looked).foldl (consider e)
        ⟨lowest solver names, none, none⟩ := by
  have hstart : (consider e ⟨lowest solver names, none, none⟩ (lowest solver names)).point
      = lowest solver names := by
    rcases consider_cases e ⟨lowest solver names, none, none⟩ (lowest solver names) with
      ⟨value, -, -, hpoint, -⟩ | ⟨-, hpoint, -⟩ <;> exact hpoint
  have hcovers : (lowest solver names).Covers names := NameMap.covers_ofList names _
  obtain ⟨looked, hsweeps, heq⟩ := foldl_sweep solver hnodup (fun _ h => h)
    (consider_sound (e := e) ⟨hcovers, fun _ h => by cases h⟩ hcovers)
    ((nothing_bestFinite (lowest solver names)).consider e _)
    (fun name hname => by rw [hstart]; exact NameMap.get?_ofList_const hname _)
  rw [hstart] at hsweeps
  exact ⟨looked, hsweeps, heq⟩

/-- Looking at points from nothing: the first best of them is held, or none has a finite value. -/
theorem search_cases {points : List (NameMap α)}
    (hsearch : solver.search e names
      = points.foldl (consider e) ⟨lowest solver names, none, none⟩) :
    (∃ before after value,
        points = before ++ (solver.search e names).point :: after ∧
          IsFirstBest e id none before (solver.search e names).point after value ∧
          (solver.search e names).best = some value) ∨
      (∀ point ∈ points, ¬ HasFiniteValue e point) ∧ (solver.search e names).best = none := by
  have hcases := foldl_consider_cases (e := e) id points
    (nothing_bestFinite (lowest solver names))
  simp only [id_eq, ← hsearch] at hcases
  rcases hcases with ⟨before, point, after, value, hsplit, hfirst, rfl, hbest⟩ | ⟨hworse, -, hbest⟩
  · exact .inl ⟨before, after, value, hsplit, hfirst, hbest⟩
  · refine .inr ⟨fun point hmem ⟨value, hvalue⟩ => ?_, hbest⟩
    have hnot := hworse point hmem value hvalue
    rw [isBetter_none, hvalue.2] at hnot
    cases hnot

/-- If there is a finite value at any of the points, the search starts at the first best one. -/
theorem startingPoint_of_finite {points : List (NameMap α)}
    (hsearch : solver.search e names
      = points.foldl (consider e) ⟨lowest solver names, none, none⟩)
    (h : ∃ point ∈ points, HasFiniteValue e point) :
    (solver.search e names).point ∈ points ∧ ∃ value,
      solver.startingPoint e names = .ok ((solver.search e names).point, value) ∧
        FiniteAt e (solver.search e names).point value ∧
        ∀ point ∈ points, ∀ other, FiniteAt e point other →
          Number.atMost (Number.abs value) (Number.abs other) = true := by
  rcases search_cases hsearch with ⟨before, after, value, hsplit, hfirst, hbest⟩ | ⟨hnone, -⟩
  · refine ⟨?_, value, ?_, hfirst.finiteAt, ?_⟩
    · rw [hsplit]
      exact List.mem_append_right _ List.mem_cons_self
    · rw [startingPoint, hbest]
    · rw [hsplit]
      exact hfirst.atMost
  · obtain ⟨point, hmem, hvalue⟩ := h
    exact absurd hvalue (hnone point hmem)

/-- Otherwise it fails as the last evaluation did, if any has. -/
theorem startingPoint_of_not_finite {points : List (NameMap α)}
    (hsearch : solver.search e names
      = points.foldl (consider e) ⟨lowest solver names, none, none⟩)
    (h : ∀ point ∈ points, ¬ HasFiniteValue e point) :
    solver.startingPoint e names =
      .error (match (failures e points).getLast? with
        | some error => .evaluation error
        | none => .noStartingPoint) := by
  have hfailure : (solver.search e names).failure = (failures e points).getLast? := by
    rw [hsearch, foldl_consider_failure, Option.or_none]
  rcases search_cases hsearch with ⟨before, after, value, hsplit, hfirst, -⟩ | ⟨-, hbest⟩
  · have hmem : (solver.search e names).point ∈ points := by
      rw [hsplit]
      exact List.mem_append_right _ List.mem_cons_self
    exact absurd ⟨value, hfirst.finiteAt⟩ (h _ hmem)
  · rw [startingPoint, hbest, hfailure]
    cases (failures e points).getLast? <;> rfl

/-- What a search does: it sweeps the variables in name order, from the point with all coordinates
lowest, and of the points that it looks at the seed is the best. -/
structure SeedSearch (solver : Solver α) (e : Expr α) (first : NameMap α)
    (looked : List (NameMap α)) (seed : NameMap α) : Prop where
  rising : e.variableNames.Pairwise (· < ·)
  covers : first.Covers e.variableNames
  lowest : ∀ name ∈ e.variableNames, first.get? name = some (solver.low : α)
  sweeps : Sweeps solver e e.variableNames first looked seed
  first_only : solver.high < solver.low ∨ e.variableNames = [] → looked = []
  best : (∃ point ∈ first :: looked, HasFiniteValue e point) → seed ∈ first :: looked ∧
    ∃ value, solver.startingPoint e e.variableNames = .ok (seed, value) ∧ FiniteAt e seed value ∧
      ∀ point ∈ first :: looked, ∀ other, FiniteAt e point other →
        Number.atMost (Number.abs value) (Number.abs other) = true

/-- **The search over whole numbers finds the best seed.**  Take an expression that no formula
solves.  Its variables are swept in name order, from the point with all coordinates lowest.  After
the sweep of a variable its coordinate is the smallest whole number of the range at which the
value is finite and no finite value on the line, the other coordinates fixed, is closer to zero;
it is unchanged if no value is finite.  If there is a finite value at any point looked at, the
seed is the point that the sweeps lead to, and of all finite values at points looked at none is
closer to zero.  Otherwise solving fails with the last failure to evaluate, or for want of a
starting point if no evaluation failed. -/
theorem solve_seed (solver : Solver α) {e : Expr α} (h : closedForm? e.simplify = none) :
    ∃ first looked seed, SeedSearch solver e.simplify first looked seed ∧
      ((∀ point ∈ first :: looked, ¬ HasFiniteValue e.simplify point) →
        (∀ error, (failures e.simplify (first :: looked)).getLast? = some error →
            solver.solve e = .error (.evaluation error)) ∧
          (failures e.simplify (first :: looked) = [] →
            solver.solve e = .error .noStartingPoint)) := by
  have hrising := e.simplify.variableNames_rising
  obtain ⟨looked, hsweeps, hsearch⟩ := search_eq_foldl solver e.simplify hrising.nodup
  have hlowest : ∀ name ∈ e.simplify.variableNames,
      (lowest solver e.simplify.variableNames).get? name = some (solver.low : α) :=
    fun name hname => NameMap.get?_ofList_const hname _
  refine ⟨lowest solver _, looked, _, ⟨hrising, NameMap.covers_ofList _ _, hlowest, hsweeps,
    hsweeps.looked_eq_nil, startingPoint_of_finite hsearch⟩, fun hnone => ?_⟩
  have hfails := startingPoint_of_not_finite hsearch hnone
  rw [solve_of_closedForm?_eq_none h, solveIteratively, hfails]
  refine ⟨fun error hlast => ?_, fun hempty => ?_⟩
  · rw [hlast]
    rfl
  · rw [hempty]
    rfl

end Seed

/-- Doubles, in a quotient that cannot be evaluated where the power in it is zero. -/
theorem solve_seed_quotient :
    let e : Expr Float := .binary .divide (.sum [Term.ofName "x", Term.ofNumber 0.5])
      (.binary .power (.sum [Term.ofName "y"]) (.sum [Term.ofName "x"]))
    let solver : Solver Float := ⟨Number.tolerance, 100, -1, 2⟩
    (OrderedNumber Float ∧ DefinedMagnitudes Float ∧ closedForm? e.simplify = none) ∧
      ∃ first looked seed, SeedSearch solver e.simplify first looked seed ∧
        ((∀ point ∈ first :: looked, ¬ HasFiniteValue e.simplify point) →
          (∀ error, (failures e.simplify (first :: looked)).getLast? = some error →
              solver.solve e = .error (.evaluation error)) ∧
            (failures e.simplify (first :: looked) = [] →
              solver.solve e = .error .noStartingPoint)) := by
  intro e solver
  have hformula : closedForm? e.simplify = none :=
    Option.isNone_iff_eq_none.mp (by decide +kernel)
  have hseed := solve_seed (e := e) solver hformula
  exact ⟨⟨inferInstance, inferInstance, hformula⟩, hseed⟩

end Solver

end PolyAlgebra
