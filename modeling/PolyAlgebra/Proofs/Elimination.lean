/-
Elimination solves a system exactly if it has one solution.

A step takes out the pivot and leaves a system with one unknown and one equation less.  The
values of the remaining unknowns satisfy the smaller system exactly if, with the value that
the pivot gives the first unknown, they satisfy the larger one (`holds_eliminate_iff`).  So
by induction on the number of unknowns the values that are found are the only ones that
satisfy all equations (`solve_eq_some`).

The other outcome needs the choice of the pivot.  Its leading coefficient is the largest, so
if that is zero no equation mentions the first unknown, and the first unknown can be anything.
What is carried through the induction is that some change of the unknowns changes no left-hand
side (`solve_eq_none`).
-/
import Mathlib
import PolyAlgebra.LinearSystem
import PolyAlgebra.Proofs.Tolerance

namespace PolyAlgebra

/-! ### Taking out the pivot -/

namespace LinearSystem

/-- Swapping out leaves the other elements, in some order. -/
theorem swapOut_of_getElem? {β : Type} {xs : List β} {index : Nat} {picked : β}
    (h : xs[index]? = some picked) :
    ∃ others, swapOut xs index = some (picked, others) ∧ xs.Perm (picked :: others) := by
  cases xs with
  | nil => simp at h
  | cons x rest =>
    cases index with
    | zero =>
      obtain rfl : x = picked := by simpa using h
      exact ⟨rest, rfl, List.Perm.refl _⟩
    | succ index =>
      have hget : rest[index]? = some picked := by simpa using h
      obtain ⟨hlt, hpicked⟩ := List.getElem?_eq_some_iff.mp hget
      refine ⟨rest.set index x, ?_, ?_⟩
      · show (rest[index]?).map (fun picked => (picked, rest.set index x)) = _
        rw [hget]
        rfl
      · -- the element and the first one change places
        have hsplit : rest = rest.take index ++ picked :: rest.drop (index + 1) := by
          rw [← hpicked, ← List.drop_eq_getElem_cons hlt, List.take_append_drop]
        rw [List.set_eq_take_append_cons_drop, if_pos hlt]
        conv_lhs => rw [hsplit]
        refine (List.perm_middle.cons x).trans ((List.Perm.swap _ _ _).trans ?_)
        exact (List.perm_middle.symm).cons picked

variable {K : Type} [Field K] [LinearOrder K] [FloorRing K] [Unsettled K]
  [IsStrictOrderedRing K]

/-- What is found so far is the largest of what was looked at, and stays so to the end. -/
theorem pivotIndex_go_spec {xs seen rest : List K} {best : Nat} {p : K}
    (hsplit : xs = seen ++ rest) (hbest : xs[best]? = some p) (hseen : ∀ x ∈ seen, |x| ≤ |p|) :
    ∃ q, xs[pivotIndex.go |p| best seen.length rest]? = some q ∧ ∀ x ∈ xs, |x| ≤ |q| := by
  induction rest generalizing seen best p with
  | nil =>
    rw [List.append_nil] at hsplit
    exact ⟨p, hbest, hsplit ▸ hseen⟩
  | cons x rest ih =>
    have hnext : xs = (seen ++ [x]) ++ rest := by simp [hsplit]
    have hlength : (seen ++ [x]).length = seen.length + 1 := by simp
    rw [pivotIndex.go, Exact.abs_eq, ← hlength]
    split
    · rename_i hlt
      refine ih hnext (by simp [hsplit]) fun y hy => ?_
      rcases List.mem_append.mp hy with hy | hy
      · exact (hseen y hy).trans hlt.le
      · rw [List.mem_singleton.mp hy]
    · rename_i hge
      refine ih hnext hbest fun y hy => ?_
      rcases List.mem_append.mp hy with hy | hy
      · exact hseen y hy
      · rw [List.mem_singleton.mp hy]
        exact not_lt.mp hge

/-- **The number at the pivot index has the largest absolute value.** -/
theorem pivotIndex_spec {xs : List K} (h : xs ≠ []) :
    ∃ q, xs[pivotIndex xs]? = some q ∧ ∀ x ∈ xs, |x| ≤ |q| := by
  obtain ⟨x, rest, rfl⟩ := List.exists_cons_of_ne_nil h
  rw [pivotIndex, Exact.abs_eq]
  have hseen : ∀ y ∈ [x], |y| ≤ |x| := by simp
  exact pivotIndex_go_spec rfl rfl hseen

end LinearSystem

/-! ### One equation -/

namespace LinearEquation

variable {K : Type} [Field K] [LinearOrder K] [FloorRing K] [Unsettled K]

/-- What the left-hand side comes to. -/
def leftSide (e : LinearEquation K) (values : List K) : K :=
  (List.zipWith (· * ·) e.coefficients values).sum

/-- The values satisfy the equation. -/
def Holds (e : LinearEquation K) (values : List K) : Prop := e.leftSide values = e.constant

/-- The part of the left-hand side after the first unknown. -/
def laterSide (e : LinearEquation K) (known : List K) : K :=
  (List.zipWith (· * ·) e.coefficients.tail known).sum

theorem leftSide_cons (e : LinearEquation K) (value : K) (known : List K) :
    e.leftSide (value :: known) = e.leading * value + e.laterSide known := by
  unfold leftSide laterSide leading
  cases e.coefficients <;> simp

theorem laterSide_replicate_zero (e : LinearEquation K) (unknowns : Nat) :
    e.laterSide (List.replicate unknowns 0) = 0 := by
  unfold laterSide
  generalize e.coefficients.tail = cs
  induction unknowns generalizing cs with
  | zero => simp
  | succ unknowns ih => cases cs <;> simp [List.replicate_succ, ih]

theorem bringOver_eq (e : LinearEquation K) (known : List K) :
    e.bringOver known = e.constant - e.laterSide known := by
  have key : ∀ cs vs : List K, (cs.zip vs).foldr (fun term rest => (-term.2) * term.1 + rest)
      e.constant = e.constant - (List.zipWith (· * ·) cs vs).sum := by
    intro cs
    induction cs with
    | nil => simp
    | cons c cs ih =>
      intro vs
      cases vs with
      | nil => simp
      | cons v vs =>
        rw [List.zip_cons_cons, List.foldr_cons, ih, List.zipWith_cons_cons, List.sum_cons]
        ring
  exact key _ _

/-- An equation with a coefficient of the first unknown gives its value. -/
theorem holds_cons_iff {e : LinearEquation K} (h : e.leading ≠ 0) (value : K) (known : List K) :
    e.Holds (value :: known) ↔ value = e.bringOver known / e.leading := by
  rw [Holds, leftSide_cons, bringOver_eq, eq_div_iff h, eq_sub_iff_add_eq, mul_comm]

section Eliminate

variable {pivot e : LinearEquation K}
  (hlength : pivot.coefficients.length = e.coefficients.length)

include hlength

theorem leftSide_eliminate_eq_laterSide (inverse : K) (known : List K) :
    (pivot.eliminate inverse e).leftSide known
      = e.laterSide known - e.leading * inverse * pivot.laterSide known := by
  have key : ∀ (factor : K) (ps xs vs : List K), ps.length = xs.length →
      (List.zipWith (· * ·) (List.zipWith (fun p x => (-p) * factor + x) ps xs) vs).sum
        = (List.zipWith (· * ·) xs vs).sum - factor * (List.zipWith (· * ·) ps vs).sum := by
    intro factor ps
    induction ps with
    | nil =>
      intro xs vs hlen
      rw [List.length_eq_zero_iff.mp hlen.symm]
      simp
    | cons p ps ih =>
      intro xs vs hlen
      obtain ⟨x, xs, rfl⟩ := List.exists_cons_of_length_eq_add_one hlen.symm
      cases vs with
      | nil => simp
      | cons v vs =>
        have hlen' : ps.length = xs.length := by simpa using hlen
        simp only [List.zipWith_cons_cons, List.sum_cons, ih xs vs hlen']
        ring
  exact key _ _ _ _ (by rw [List.length_tail, List.length_tail, hlength])

/-- A multiple of the pivot is subtracted, and the first unknown is gone. -/
theorem leftSide_eliminate (hpivot : pivot.leading ≠ 0) (value : K) (known : List K) :
    (pivot.eliminate (1 / pivot.leading) e).leftSide known
      = e.leftSide (value :: known)
        - e.leading * (1 / pivot.leading) * pivot.leftSide (value :: known) := by
  have hcancel : e.leading * (1 / pivot.leading) * pivot.leading = e.leading := by
    rw [mul_assoc, one_div_mul_cancel hpivot, mul_one]
  rw [leftSide_eliminate_eq_laterSide hlength, leftSide_cons, leftSide_cons, mul_add,
    ← mul_assoc, hcancel]
  ring

/-- **Where the pivot holds, nothing is lost and nothing is gained by eliminating.** -/
theorem holds_eliminate_iff (hpivot : pivot.leading ≠ 0) {value : K} {known : List K}
    (hholds : pivot.Holds (value :: known)) :
    (pivot.eliminate (1 / pivot.leading) e).Holds known ↔ e.Holds (value :: known) := by
  have hconstant : (pivot.eliminate (1 / pivot.leading) e).constant
      = e.constant - e.leading * (1 / pivot.leading) * pivot.constant := by
    unfold eliminate
    ring
  unfold Holds
  rw [leftSide_eliminate hlength hpivot value, hholds, hconstant, sub_left_inj]

end Eliminate

end LinearEquation

/-! ### Systems -/

namespace LinearSystem

variable {K : Type} [Field K] [LinearOrder K] [FloorRing K] [Unsettled K]

/-- There are as many equations as unknowns, and each has a coefficient for every unknown. -/
structure Square (unknowns : Nat) (equations : List (LinearEquation K)) : Prop where
  count : equations.length = unknowns
  width : ∀ e ∈ equations, e.coefficients.length = unknowns

/-- The pivot, the other equations, and the system they leave. -/
structure Step (unknowns : Nat) (equations : List (LinearEquation K)) where
  pivot : LinearEquation K
  others : List (LinearEquation K)
  perm : equations.Perm (pivot :: others)
  largest : ∀ e ∈ equations, |e.leading| ≤ |pivot.leading|
  solve_eq : solve (unknowns + 1) equations = if pivot.leading = 0 then none else
    (solve unknowns (others.map (pivot.eliminate (1 / pivot.leading)))).map
      (fun known => pivot.bringOver known / pivot.leading :: known)

/-- The system that is left, once the first unknown is eliminated. -/
def Step.rest {unknowns : Nat} {equations : List (LinearEquation K)}
    (s : Step unknowns equations) : List (LinearEquation K) :=
  s.others.map (s.pivot.eliminate (1 / s.pivot.leading))

section Step

variable {unknowns : Nat} {equations : List (LinearEquation K)}

theorem Step.forall_iff (s : Step unknowns equations) {P : LinearEquation K → Prop} :
    (∀ e ∈ equations, P e) ↔ P s.pivot ∧ ∀ e ∈ s.others, P e := by
  rw [← List.forall_mem_cons]
  simp only [s.perm.mem_iff]

theorem Step.length_eq (s : Step unknowns equations) (hs : Square (unknowns + 1) equations) :
    ∀ e ∈ s.others, s.pivot.coefficients.length = e.coefficients.length := by
  obtain ⟨hpivot, hothers⟩ := s.forall_iff.mp hs.width
  intro e he
  rw [hpivot, hothers e he]

theorem Step.square (s : Step unknowns equations) (hs : Square (unknowns + 1) equations) :
    Square unknowns s.rest := by
  have hcount := s.perm.length_eq
  obtain ⟨hpivot, hothers⟩ := s.forall_iff.mp hs.width
  refine ⟨?_, fun e he => ?_⟩
  · rw [hs.count, List.length_cons] at hcount
    rw [Step.rest, List.length_map]
    omega
  · obtain ⟨e', he', rfl⟩ := List.mem_map.mp he
    show (List.zipWith _ s.pivot.coefficients.tail e'.coefficients.tail).length = unknowns
    rw [List.length_zipWith, List.length_tail, List.length_tail, hpivot, hothers e' he']
    omega

/-- The values satisfy the system exactly if the others satisfy the rest and the first one is
what the pivot gives. -/
theorem Step.holds_iff (s : Step unknowns equations) (hs : Square (unknowns + 1) equations)
    (hpivot : s.pivot.leading ≠ 0) (value : K) (known : List K) :
    (∀ e ∈ equations, e.Holds (value :: known)) ↔
      value = s.pivot.bringOver known / s.pivot.leading ∧ ∀ e ∈ s.rest, e.Holds known := by
  rw [s.forall_iff, LinearEquation.holds_cons_iff hpivot]
  refine and_congr_right fun hvalue => ?_
  have hholds := (LinearEquation.holds_cons_iff hpivot value known).mpr hvalue
  rw [Step.rest, List.forall_mem_map]
  exact forall₂_congr fun e he =>
    (LinearEquation.holds_eliminate_iff (s.length_eq hs e he) hpivot hholds).symm

variable [IsStrictOrderedRing K]

/-- There is a step as long as there is an equation. -/
theorem exists_step (h : equations ≠ []) : Nonempty (Step unknowns equations) := by
  have hleading : equations.map (·.leading) ≠ [] := by simpa using h
  obtain ⟨q, hq, hlargest⟩ := pivotIndex_spec hleading
  rw [List.getElem?_map, Option.map_eq_some_iff] at hq
  obtain ⟨pivot, hpivot, rfl⟩ := hq
  obtain ⟨others, hswap, hperm⟩ := swapOut_of_getElem? hpivot
  rw [List.forall_mem_map] at hlargest
  refine ⟨⟨pivot, others, hperm, hlargest, ?_⟩⟩
  rw [solve, hswap]
  by_cases hzero : pivot.leading = 0
  · simp [hzero]
  · simp only [Option.bind_eq_bind, Option.bind_some, beq_iff_eq, if_neg hzero]
    cases solve unknowns (others.map (pivot.eliminate (1 / pivot.leading))) <;> rfl

theorem Square.step (hs : Square (unknowns + 1) equations) : Nonempty (Step unknowns equations) :=
  exists_step (List.ne_nil_of_length_eq_add_one hs.count)

end Step

variable [IsStrictOrderedRing K]

/-- **The values that are found satisfy the system, and no others do.** -/
theorem solve_eq_some {unknowns : Nat} {equations : List (LinearEquation K)} {known : List K}
    (hs : Square unknowns equations) (h : solve unknowns equations = some known) :
    known.length = unknowns ∧ ∀ values : List K, values.length = unknowns →
      ((∀ e ∈ equations, e.Holds values) ↔ values = known) := by
  induction unknowns generalizing equations known with
  | zero =>
    obtain rfl : [] = known := Option.some_inj.mp h
    refine ⟨rfl, fun values hvalues => ?_⟩
    rw [List.length_eq_zero_iff.mp hs.count, List.length_eq_zero_iff.mp hvalues]
    simp
  | succ unknowns ih =>
    obtain ⟨s⟩ := hs.step
    rw [s.solve_eq] at h
    split at h
    · cases h
    · rename_i hpivot
      obtain ⟨later, hlater, rfl⟩ := Option.map_eq_some_iff.mp h
      obtain ⟨hlength, hunique⟩ := ih (s.square hs) hlater
      refine ⟨by rw [List.length_cons, hlength], fun values hvalues => ?_⟩
      obtain ⟨value, tail, rfl⟩ := List.exists_cons_of_length_eq_add_one hvalues
      rw [s.holds_iff hs hpivot, hunique tail (by simpa using hvalues), List.cons.injEq]
      constructor
      · rintro ⟨rfl, rfl⟩
        exact ⟨rfl, rfl⟩
      · rintro ⟨rfl, rfl⟩
        exact ⟨rfl, rfl⟩

/-- **A system that is given up has a change of the unknowns that no equation notices.** -/
theorem solve_eq_none {unknowns : Nat} {equations : List (LinearEquation K)}
    (hs : Square unknowns equations) (h : solve unknowns equations = none) :
    ∃ change : List K, change.length = unknowns ∧ (∃ x ∈ change, x ≠ 0) ∧
      ∀ e ∈ equations, e.leftSide change = 0 := by
  induction unknowns generalizing equations with
  | zero => cases h
  | succ unknowns ih =>
    obtain ⟨s⟩ := hs.step
    rw [s.solve_eq] at h
    by_cases hpivot : s.pivot.leading = 0
    · -- no equation mentions the first unknown
      refine ⟨1 :: List.replicate unknowns 0, by simp, ⟨1, by simp⟩, fun e he => ?_⟩
      have hleading : e.leading = 0 := by
        have := s.largest e he
        rw [hpivot, abs_zero] at this
        exact abs_nonpos_iff.mp this
      rw [LinearEquation.leftSide_cons, hleading, zero_mul, zero_add,
        LinearEquation.laterSide_replicate_zero]
    · rw [if_neg hpivot, Option.map_eq_none_iff] at h
      obtain ⟨later, hlength, hnonzero, hzero⟩ := ih (s.square hs) h
      -- the first unknown makes up for the change that the pivot notices
      have hpivotSide : s.pivot.leftSide (-s.pivot.laterSide later / s.pivot.leading :: later)
          = 0 := by
        rw [LinearEquation.leftSide_cons, mul_div_cancel₀ _ hpivot, neg_add_cancel]
      refine ⟨_ :: later, by rw [List.length_cons, hlength],
        hnonzero.imp fun x hx => ⟨List.mem_cons_of_mem _ hx.1, hx.2⟩,
        s.forall_iff.mpr ⟨hpivotSide, fun e he => ?_⟩⟩
      have heliminated := hzero _ (List.mem_map_of_mem he)
      rw [LinearEquation.leftSide_eliminate (s.length_eq hs e he) hpivot _ later, hpivotSide,
        mul_zero, sub_zero] at heliminated
      exact heliminated

end LinearSystem

end PolyAlgebra
