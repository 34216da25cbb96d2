/-
The canonical order of terms.

The order is put together from four comparisons: degrees, numbers of variables,
coefficients, and the names themselves, each consulted only when those before it are tied.
The display order is the first three.  Each of the four can be turned round and goes in no
circle, so the same holds of the whole, as long as the numbers of the terms are defined
(`displayOrder_consistent`, `canonicalOrder_consistent`).  Sorting by it is therefore right
(`reduce_inOrder`).

Degrees are compared before anything else, so the first term of a sum in canonical order has the
largest degree, whatever the coefficients are (`degree_of_isChain`).
-/
import Mathlib
import PolyAlgebra.Proofs.Canonical
import PolyAlgebra.Proofs.Sorting

namespace PolyAlgebra

variable {α : Type} [Number α]

/-! ### Degrees are defined -/

theorem Number.isUndefined_larger {a b : α} (ha : isUndefined a = false)
    (hb : isUndefined b = false) : isUndefined (larger a b) = false := by
  rw [larger]
  split
  · exact hb
  · exact ha

theorem Number.isUndefined_foldl_larger (xs : List α) (hxs : ∀ x ∈ xs, isUndefined x = false) :
    ∀ a : α, isUndefined a = false → isUndefined (xs.foldl larger a) = false := by
  induction xs with
  | nil => intro a ha; exact ha
  | cons x rest ih =>
    intro a ha
    exact ih (fun y hy => hxs y (List.mem_cons_of_mem _ hy)) _
      (isUndefined_larger ha (hxs x List.mem_cons_self))

/-- Where all numbers are defined, none of them is passed over. -/
theorem Number.largest_of_defined {x : α} {rest : List α}
    (h : ∀ y ∈ x :: rest, isUndefined y = false) :
    largest (x :: rest) = rest.foldl larger x := by
  have hfilter : (x :: rest).filter (fun y => !isUndefined y) = x :: rest :=
    List.filter_eq_self.mpr fun y hy => by rw [h y hy]; rfl
  rw [largest, hfilter]

/-- The first of some numbers is the largest if no later one is larger. -/
theorem Number.foldl_larger_of_forall {x : α} {rest : List α} (h : ∀ y ∈ rest, ¬ x < y) :
    rest.foldl larger x = x := by
  induction rest with
  | nil => rfl
  | cons y rest ih =>
    obtain ⟨hy, hrest⟩ := List.forall_mem_cons.mp h
    rw [List.foldl_cons, larger, if_neg hy]
    exact ih hrest

namespace Term

/-- No number in the term is undefined. -/
structure Defined (t : Term α) : Prop where
  coefficient : Number.isUndefined t.coefficient = false
  exponents : ∀ name exponent, t.powers.get? name = some exponent →
    Number.isUndefined exponent = false

variable [OrderedNumber α]

theorem zero_defined : (zero : Term α).Defined :=
  ⟨OrderedNumber.zero_defined, fun name exponent h => by simp [zero] at h⟩

/-- Normalising brings in no undefined number. -/
theorem defined_normalise {c : α} {p : NameMap α} (hc : Number.isUndefined c = false)
    (hp : ∀ name exponent, p.get? name = some exponent → Number.isUndefined exponent = false) :
    (normalise c p).Defined := by
  refine ⟨?_, forall_powers_normalise c hp⟩
  cases hzero : c == 0 with
  | true =>
    rw [normalise_of_isZero hzero]
    exact OrderedNumber.zero_defined
  | false =>
    rw [normalise_of_ne hzero]
    exact hc

theorem defined_ofPowers {c : α} {pairs : List (String × α)}
    (hc : Number.isUndefined c = false)
    (hpairs : ∀ e ∈ pairs, Number.isUndefined e.2 = false) : (ofPowers c pairs).Defined :=
  defined_normalise hc fun _ _ hget =>
    hpairs _ (List.mem_of_mem_filter (NameMap.mem_of_get?_ofList hget))

/-- The degree of a term without undefined exponents is defined. -/
theorem isUndefined_degree {t : Term α} (h : ∀ name exponent,
    t.powers.get? name = some exponent → Number.isUndefined exponent = false) :
    Number.isUndefined t.degree = false := by
  rw [Term.degree]
  split
  · exact OrderedNumber.zero_defined
  · rename_i hne
    have hall : ∀ x ∈ t.powers.values, Number.isUndefined x = false := by
      intro x hx
      obtain ⟨name, hget⟩ := (t.powers.mem_values_iff x).mp hx
      exact h name x hget
    cases hv : t.powers.values with
    | nil => exact absurd (List.isEmpty_iff.mpr (List.map_eq_nil_iff.mp hv)) hne
    | cons x rest =>
      rw [hv] at hall
      rw [Number.largest_of_defined hall]
      exact Number.isUndefined_foldl_larger rest (fun y hy => hall y (List.mem_cons_of_mem _ hy))
        x (hall x List.mem_cons_self)

theorem Defined.degree {t : Term α} (h : t.Defined) : Number.isUndefined t.degree = false :=
  isUndefined_degree h.exponents

/-! ### The order -/

theorem compareNames_eq (as bs : List String) :
    compareNames as bs = List.compareLex compare as bs := by
  induction as generalizing bs with
  | nil => cases bs <;> rfl
  | cons a as ih =>
    cases bs with
    | nil => rfl
    | cons b bs =>
      rw [compareNames, List.compareLex, ih]
      show _ = match compareOfLessAndEq a b with
        | .lt => Ordering.lt | .eq => List.compareLex compare as bs | .gt => Ordering.gt
      rw [compareOfLessAndEq]
      by_cases hab : a < b
      · simp [hab]
      · rw [if_neg hab, if_neg hab]
        by_cases heq : a = b
        · subst heq
          simp
        · have hba : b < a := by
            refine Classical.byContradiction fun hba => heq ?_
            exact String.le_antisymm (String.not_lt.mp hba) (String.not_lt.mp hab)
          simp [hba, heq]

end Term

variable [OrderedNumber α]

/-- A comparison of what a function reads off is as good as the comparison itself. -/
theorem transCmp_comap {β γ : Type} (order : γ → γ → Ordering) [Std.TransCmp order]
    (f : β → γ) : Std.TransCmp (fun a b => order (f a) (f b)) where
  eq_swap := Std.OrientedCmp.eq_swap
  isLE_trans := Std.TransCmp.isLE_trans

/-- The same with larger numbers first. -/
theorem transCmp_falling {β : Type} (f : β → α)
    (hf : ∀ b, Number.isUndefined (f b) = false) :
    Std.TransCmp (fun a b => Number.order (f b) (f a)) := by
  have number := transCmp_comap (fun a b : {x : α // Number.isUndefined x = false} =>
    Number.order a.1 b.1) (fun b : β => ⟨f b, hf b⟩)
  exact @Std.TransCmp.opposite _ (fun a b => Number.order (f a) (f b)) number

namespace Term

/-- Terms without undefined numbers are shown without going in circles. -/
instance instTransCmpDisplayOrder :
    Std.TransCmp (fun t u : {t : Term α // t.Defined} => t.1.displayOrder u.1) := by
  have degrees := transCmp_falling (fun t : {t : Term α // t.Defined} => t.1.degree)
    (fun t => t.2.degree)
  have dimensions := transCmp_comap (compare : Nat → Nat → Ordering)
    (fun t : {t : Term α // t.Defined} => t.1.dimension)
  have coefficients := transCmp_falling (fun t : {t : Term α // t.Defined} => t.1.coefficient)
    (fun t => t.2.coefficient)
  have whole : Std.TransCmp (compareLex (compareLex
      (fun t u : {t : Term α // t.Defined} => Number.order u.1.degree t.1.degree)
      (fun t u : {t : Term α // t.Defined} => compare t.1.dimension u.1.dimension))
      (fun t u : {t : Term α // t.Defined} =>
        Number.order u.1.coefficient t.1.coefficient)) := inferInstance
  exact whole

/-- Nor does breaking the ties by names go in circles. -/
instance instTransCmpCanonicalOrder :
    Std.TransCmp (fun t u : {t : Term α // t.Defined} => t.1.canonicalOrder u.1) := by
  have names := transCmp_comap (List.compareLex (compare : String → String → Ordering))
    (fun t : {t : Term α // t.Defined} => t.1.powers.names)
  have whole : Std.TransCmp (compareLex
      (fun t u : {t : Term α // t.Defined} => t.1.displayOrder u.1)
      (fun t u : {t : Term α // t.Defined} =>
        List.compareLex compare t.1.powers.names u.1.powers.names)) := inferInstance
  simp only [canonicalOrder, compareNames_eq]
  exact whole

theorem displayOrder_swap (t u : Term α) : u.displayOrder t = (t.displayOrder u).swap := by
  rw [displayOrder, displayOrder, Ordering.swap_then, Ordering.swap_then, ← Number.order_swap,
    ← Number.order_swap, ← @Std.OrientedCmp.eq_swap _ (compare : Nat → Nat → Ordering)]

theorem canonicalOrder_swap (t u : Term α) : u.canonicalOrder t = (t.canonicalOrder u).swap := by
  rw [canonicalOrder, canonicalOrder, compareNames_eq, compareNames_eq, Ordering.swap_then,
    ← displayOrder_swap, ← @Std.OrientedCmp.eq_swap _ (List.compareLex compare)]

theorem displayOrder_consistent : Consistent (displayOrder (α := α)) Defined :=
  .of_transCmp displayOrder_swap instTransCmpDisplayOrder

theorem canonicalOrder_consistent : Consistent (canonicalOrder (α := α)) Defined :=
  .of_transCmp canonicalOrder_swap instTransCmpCanonicalOrder

theorem canonicalOrder_transitiveOn {terms : TermSum α} (h : ∀ t ∈ terms, t.Defined) :
    TransitiveOn canonicalOrder terms := canonicalOrder_consistent.transitiveOn h

/-- A term that stands before another has no smaller degree. -/
theorem not_degree_lt {t u : Term α} (h : t.canonicalOrder u ≠ .gt) : ¬ t.degree < u.degree := by
  intro hlt
  have hgt : Number.order u.degree t.degree = .gt := (Number.order_eq_gt_iff _ _).mpr hlt
  rw [canonicalOrder, displayOrder, hgt] at h
  exact h rfl

end Term

namespace TermSum

/-- **The canonical form of a sum is in canonical order.** -/
theorem reduce_inOrder {terms : TermSum α} (h : ∀ t ∈ reduce terms, t.Defined) :
    InOrder Term.canonicalOrder (reduce terms) := by
  refine stableSort_inOrder Term.canonicalOrder_swap (Term.canonicalOrder_transitiveOn ?_)
  intro t ht
  exact h t ((stableSort_perm _ _).mem_iff.mpr ht)

/-- Neighbours in a canonical form are in order even if numbers are undefined. -/
theorem reduce_isChain (terms : TermSum α) :
    (reduce terms).IsChain fun t u => t.canonicalOrder u ≠ .gt :=
  stableSort_isChain Term.canonicalOrder_swap _

/-! ### The first term -/

/-- If neighbours are in canonical order, no term has a larger degree than the first.  It is
enough that degrees are defined. -/
theorem not_degree_lt_of_isChain {t : Term α} {rest : TermSum α}
    (hdefined : ∀ u ∈ t :: rest, Number.isUndefined u.degree = false)
    (h : (t :: rest).IsChain fun u v => u.canonicalOrder v ≠ .gt) :
    ∀ u ∈ rest, ¬ t.degree < u.degree := by
  induction rest generalizing t with
  | nil => exact List.forall_mem_nil _
  | cons u rest ih =>
    obtain ⟨hfirst, hrest⟩ := List.isChain_cons_cons.mp h
    obtain ⟨ht, hlater⟩ := List.forall_mem_cons.mp hdefined
    have hu := hlater u List.mem_cons_self
    refine List.forall_mem_cons.mpr ⟨Term.not_degree_lt hfirst, fun v hv => ?_⟩
    have hdv := hlater v (List.mem_cons_of_mem u hv)
    rw [← Number.atMost_iff_not_lt hdv ht]
    exact Number.atMost_trans ((Number.atMost_iff_not_lt hdv hu).mpr (ih hlater hrest v hv))
      ((Number.atMost_iff_not_lt hu ht).mpr (Term.not_degree_lt hfirst)) hdv hu ht

/-- **The first term of a sum in canonical order has the degree of the sum.** -/
theorem degree_of_isChain {t : Term α} {rest : TermSum α}
    (hdefined : ∀ u ∈ t :: rest, Number.isUndefined u.degree = false)
    (h : (t :: rest).IsChain fun u v => u.canonicalOrder v ≠ .gt) :
    degree (t :: rest) = t.degree := by
  have hlargest := not_degree_lt_of_isChain hdefined h
  rw [degree, if_neg (by simp), List.map_cons,
    Number.largest_of_defined (by simpa using hdefined)]
  exact Number.foldl_larger_of_forall (by simpa using hlargest)

end TermSum

end PolyAlgebra
