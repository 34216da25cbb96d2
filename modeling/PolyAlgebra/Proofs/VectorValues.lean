/-
Vectors are combined value by value.

A vector has values if each of its components has one, and then the values are filed under the
names of the components (`mapExcept_eq_ok_iff`).  So what the values of a combined vector are can be
asked name by name.  Combining lays the components of the one vector over those of the other, and
under each name there are only four cases: both have a component, only one of them has, or neither.

The product of two vectors is a chain of sums that grows to the right end, so its value is the sum
of the products from left to right.  Nothing is assumed of the numbers, save where no name is
shared: the value is then what adding up a lone zero gives, and `ZeroIsTotal` says that this is
zero.
-/
import Mathlib
import PolyAlgebra.Double.Arithmetic
import PolyAlgebra.Proofs.Evaluation
import PolyAlgebra.Vector

namespace PolyAlgebra

/-! ### Maps changed by steps that can fail -/

namespace NameMap

variable {β γ ε : Type}

/-- Entries that correspond one by one are found under the same names. -/
theorem findEntry_rel {R : β → γ → Prop} {l : List (String × β)} {r : List (String × γ)}
    (h : List.Forall₂ (fun e e' => e.1 = e'.1 ∧ R e.2 e'.2) l r) (name : String) :
    Option.Rel R (findEntry name l) (findEntry name r) := by
  induction h with
  | nil => exact .none
  | @cons e e' l r he _ ih =>
    rw [findEntry, findEntry, ← he.1]
    split
    · exact .some he.2
    · exact ih

variable {f : β → Except ε γ} {m : NameMap β} {n : NameMap γ}

theorem mapExcept_entries (h : m.mapExcept f = .ok n) :
    List.Forall₂ (fun e e' => e.1 = e'.1 ∧ f e.2 = .ok e'.2) m.entries n.entries := by
  obtain ⟨entries, hentries, rfl⟩ := map_eq_ok_iff.mp h
  have hsteps : List.Forall₂ (fun e e' => e.1 = e'.1 ∧ f e.2 = .ok e'.2) m.entries entries := by
    refine (mapM_eq_ok_iff.mp hentries).imp fun e e' he => ?_
    obtain ⟨c, hc, rfl⟩ := map_eq_ok_iff.mp he
    exact ⟨rfl, hc⟩
  rwa [entries_ofList (k := Prod.fst) (R := fun e c => f e.2 = .ok c)
    m.names_rising hsteps]

theorem get?_of_mapExcept (h : m.mapExcept f = .ok n) (name : String) :
    Option.Rel (fun b c => f b = .ok c) (m.get? name) (n.get? name) :=
  findEntry_rel (R := fun b c => f b = .ok c) (mapExcept_entries h) name

/-- **What a step makes of a map is what it makes of each value.** -/
theorem mapExcept_eq_ok_iff : m.mapExcept f = .ok n ↔
    ∀ name, Option.Rel (fun b c => f b = .ok c) (m.get? name) (n.get? name) := by
  refine ⟨get?_of_mapExcept, fun h => ?_⟩
  cases hmap : m.mapExcept f with
  | error error =>
    obtain ⟨e, he, hfails⟩ := exists_of_mapM_eq_error (map_eq_error_iff.mp hmap)
    have hrel := h e.1
    rw [(m.mem_entries_iff e.1 e.2).mp he] at hrel
    generalize n.get? e.1 = c at hrel
    cases hrel with
    | some hok => cases (map_eq_error_iff.mp hfails).symm.trans hok
  | ok n' =>
    refine congrArg Except.ok (ext fun name => ?_)
    have hrel := h name
    have hrel' := get?_of_mapExcept hmap name
    generalize m.get? name = b, n.get? name = c, n'.get? name = c' at hrel hrel'
    cases hrel with
    | none =>
      cases hrel' with
      | none => rfl
    | some hc =>
      cases hrel' with
      | some hc' => rw [Except.ok.inj (hc.symm.trans hc')]

/-- A map has the names of two maps, with their values combined where both have one and unchanged
where only one has. -/
structure Combines (g : β → β → β) (V W values : NameMap β) : Prop where
  names : ∀ name, name ∈ values.names ↔ name ∈ V.names ∨ name ∈ W.names
  get? : ∀ name, values.get? name = Option.merge g (V.get? name) (W.get? name)

theorem combines_of_get? {g : β → β → β} {V W values : NameMap β}
    (h : ∀ name, values.get? name = Option.merge g (V.get? name) (W.get? name)) :
    Combines g V W values := by
  refine ⟨fun name => ?_, h⟩
  simp only [mem_names_iff, h]
  cases V.get? name <;> cases W.get? name <;> simp

/-- The values of one map laid over those of another, combined where both have one. -/
theorem overlay_combines (g : β → β → β) (V W : NameMap β) :
    Combines g V W (W.overlay (fun right left => (right.map (g left)).getD left) V) := by
  refine combines_of_get? fun name => ?_
  rw [get?_overlay]
  cases V.get? name <;> cases W.get? name <;> rfl

end NameMap

/-- A lone zero adds up to zero, although sums start from the negative zero. -/
class ZeroIsTotal (α : Type) [Number α] : Prop where
  total_zero : Number.total [(0 : α)] = 0

instance instZeroIsTotalExact {K : Type} [Field K] [LinearOrder K] [FloorRing K] [Unsettled K] :
    ZeroIsTotal K where
  total_zero := (Exact.total_eq_sum _).trans List.sum_singleton

instance instZeroIsTotalFloat : ZeroIsTotal Float where
  total_zero := by decide +kernel

namespace Vector

variable {α : Type} [Number α] {b : Bindings α} {v other : Vector α} {V W : NameMap α}

/-! ### Component by component -/

/-- **Combined vectors have the combined values**, if the operator has a result for all numbers. -/
theorem evaluate_zipWith {op : Operator} {g : α → α → α} (hop : ∀ x y, op.apply x y = .ok (g x y))
    (hv : v.evaluate b = .ok V) (hother : other.evaluate b = .ok W) :
    ∃ values, (v.zipWith (.binary op) other).evaluate b = .ok values ∧
      NameMap.Combines g V W values := by
  have hvalues := NameMap.overlay_combines g V W
  refine ⟨_, NameMap.mapExcept_eq_ok_iff.mpr fun name => ?_, hvalues⟩
  rw [hvalues.get?, zipWith, NameMap.get?_overlay]
  have hleft := NameMap.get?_of_mapExcept hv name
  have hright := NameMap.get?_of_mapExcept hother name
  generalize v.components.get? name = l, V.get? name = x at hleft
  generalize other.components.get? name = r, W.get? name = y at hright
  cases hleft with
  | none =>
    cases hright with
    | none => exact .none
    | some hy => exact .some hy
  | some hx =>
    cases hright with
    | none => exact .some hx
    | some hy => exact .some (Expr.value_binary_eq_ok_iff.mpr ⟨_, _, hx, hy, hop _ _⟩)

/-! ### The product of two vectors -/

/-- The products of the values under the names that both maps have, in name order. -/
def sharedValueProducts (V W : NameMap α) : List α :=
  V.entries.filterMap (fun e => (W.get? e.1).map (e.2 * ·))

/-- The sum from left to right, zero for no numbers. -/
def sumFromLeft : List α → α
  | [] => 0
  | x :: rest => rest.foldl (· + ·) x

/-- The shared products have the products of the values. -/
theorem sharedProducts_values (hv : v.evaluate b = .ok V) (hother : other.evaluate b = .ok W) :
    List.Forall₂ (fun e x => e.value b = .ok x) (v.sharedProducts other)
      (sharedValueProducts V W) := by
  have hentries := NameMap.mapExcept_entries hv
  rw [sharedProducts, sharedValueProducts]
  generalize v.components.entries = es, V.entries = xs at hentries
  induction hentries with
  | nil => exact .nil
  | @cons e e' l r he _ ih =>
    obtain ⟨hname, hx⟩ := he
    have hright := NameMap.get?_of_mapExcept hother e.1
    rw [List.filterMap_cons, List.filterMap_cons, ← hname]
    generalize other.components.get? e.1 = right, W.get? e.1 = y at hright
    cases hright with
    | none => exact ih
    | some hy => exact .cons (Expr.value_binary_eq_ok_iff.mpr ⟨_, _, hx, hy, rfl⟩) ih

/-- A chain of sums has the sum from left to right. -/
theorem value_foldl_add {e : Expr α} {x : α} (he : e.value b = .ok x) {es : List (Expr α)}
    {xs : List α} (hes : List.Forall₂ (fun e x => e.value b = .ok x) es xs) :
    (es.foldl (.binary .add) e).value b = .ok (xs.foldl (· + ·) x) := by
  induction hes generalizing e x with
  | nil => exact he
  | cons hhead _ ih => exact ih (Expr.value_binary_eq_ok_iff.mpr ⟨_, _, he, hhead, rfl⟩)

/-- **The product has the sum of the products as its value**, if there are any or a lone zero adds
up to zero. -/
theorem dotProduct_value (hv : v.evaluate b = .ok V) (hother : other.evaluate b = .ok W)
    (hshared : sharedValueProducts V W ≠ [] ∨ ZeroIsTotal α) :
    (v.dotProduct other).value b = .ok (sumFromLeft (sharedValueProducts V W)) := by
  have hproducts := sharedProducts_values hv hother
  rw [dotProduct]
  generalize v.sharedProducts other = es, sharedValueProducts V W = xs at hproducts hshared
  cases hproducts with
  | nil =>
    have hzero : ZeroIsTotal α := hshared.resolve_left fun hne => hne rfl
    exact congrArg Except.ok hzero.total_zero
  | cons hhead htail => exact value_foldl_add hhead htail

/-! ### All operations -/

/-- **Vector arithmetic commutes with evaluation**, in whatever arithmetic.  Sums, differences and
products have the names of both vectors, with the values combined under the names they share and
passed through under the others.  The product of two vectors is the sum of the products of shared
values from left to right in name order, and zero if there are none; this last case takes an
arithmetic in which a lone zero adds up to zero, as with doubles and exact numbers. -/
theorem evaluate_arithmetic (hv : v.evaluate b = .ok V) (hother : other.evaluate b = .ok W) :
    (∃ sum, (v.add other).evaluate b = .ok sum ∧ NameMap.Combines (· + ·) V W sum) ∧
    (∃ difference, (v.subtract other).evaluate b = .ok difference ∧
      NameMap.Combines (· - ·) V W difference) ∧
    (∃ product, (v.multiply other).evaluate b = .ok product ∧
      NameMap.Combines (· * ·) V W product) ∧
    (sharedValueProducts V W ≠ [] ∨ ZeroIsTotal α →
      (v.dotProduct other).value b = .ok (sumFromLeft (sharedValueProducts V W))) :=
  ⟨evaluate_zipWith (fun _ _ => rfl) hv hother, evaluate_zipWith (fun _ _ => rfl) hv hother,
    evaluate_zipWith (fun _ _ => rfl) hv hother, dotProduct_value hv hother⟩

/-- Doubles, with names on either side only and a shared one. -/
theorem evaluate_arithmetic_overlapping :
    let v : Vector Float := ofNumbers (.ofList [("x", 2), ("y", 0.1)])
    let other : Vector Float := ofNumbers (.ofList [("y", 0.2), ("z", 5)])
    let b : Bindings Float := fun _ => none
    ∃ V W : NameMap Float, (v.evaluate b = .ok V ∧ other.evaluate b = .ok W) ∧
      (∃ sum, (v.add other).evaluate b = .ok sum ∧ NameMap.Combines (· + ·) V W sum) ∧
      (∃ difference, (v.subtract other).evaluate b = .ok difference ∧
        NameMap.Combines (· - ·) V W difference) ∧
      (∃ product, (v.multiply other).evaluate b = .ok product ∧
        NameMap.Combines (· * ·) V W product) ∧
      (v.dotProduct other).value b = .ok (sumFromLeft (sharedValueProducts V W)) := by
  intro v other b
  refine ⟨_, _, ⟨rfl, rfl⟩, ?_⟩
  obtain ⟨hsum, hdifference, hproduct, hdot⟩ :=
    @evaluate_arithmetic Float _ b v other _ _ rfl rfl
  exact ⟨hsum, hdifference, hproduct, hdot (.inr inferInstance)⟩

end Vector

end PolyAlgebra
