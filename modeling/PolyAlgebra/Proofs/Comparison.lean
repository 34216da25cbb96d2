/-
The laws of comparison.

`Number` assumes nothing about `<` and `==`.  What sums of terms rely on is collected in
`OrderedNumber`: equality is symmetric and transitive, less-than is a strict order, and of
two numbers that are defined exactly one is less or they are equal.  Numbers that are not
defined compare with nothing, and no law says anything else about them.

Both exact arithmetic and the doubles obey these laws, infinities and signed zeros included.
-/
import Mathlib
import PolyAlgebra.Proofs.Exact

namespace PolyAlgebra

/-- Comparison is a total order of the numbers that are defined. -/
class OrderedNumber (α : Type) [Number α] : Prop where
  eq_symm : ∀ a b : α, (a == b) = (b == a)
  eq_trans : ∀ a b c : α, (a == b) = true → (b == c) = true → (a == c) = true
  lt_asymm : ∀ a b : α, a < b → ¬ b < a
  lt_trans : ∀ a b c : α, a < b → b < c → a < c
  ne_of_lt : ∀ a b : α, a < b → (a == b) = false
  total : ∀ a b : α, Number.isUndefined a = false → Number.isUndefined b = false →
    a < b ∨ (a == b) = true ∨ b < a
  zero_defined : Number.isUndefined (0 : α) = false

/-- Exact numbers are compared by the order of the field. -/
instance instOrderedNumberExact {K : Type} [Field K] [LinearOrder K] [FloorRing K]
    [Unsettled K] : OrderedNumber K where
  eq_symm a b := by
    show decide (a = b) = decide (b = a)
    exact decide_eq_decide.mpr eq_comm
  eq_trans a b c hab hbc := by
    rw [beq_iff_eq] at hab hbc ⊢
    exact hab.trans hbc
  lt_asymm a b h := lt_asymm h
  lt_trans a b c := lt_trans
  ne_of_lt a b h := by simpa using ne_of_lt h
  total a b _ _ := by
    rcases lt_trichotomy a b with h | h | h
    · exact Or.inl h
    · exact Or.inr (Or.inl (by simpa using h))
    · exact Or.inr (Or.inr h)
  zero_defined := by simp [Number.isUndefined]

namespace Number

variable {α : Type} [Number α]

theorem order_eq_lt_iff (a b : α) : order a b = .lt ↔ a < b := by
  rw [order, compare?]
  by_cases hab : a < b
  · simp [hab]
  · rw [if_neg hab]
    by_cases hba : b < a
    · simp [hab, hba]
    · rw [if_neg hba]
      cases a == b <;> simp [hab]

variable [OrderedNumber α]

theorem order_swap (a b : α) : order b a = (order a b).swap := by
  rw [order, compare?, order, compare?, OrderedNumber.eq_symm b a]
  by_cases hab : a < b
  · have hba := OrderedNumber.lt_asymm a b hab
    simp [hab, hba]
  · by_cases hba : b < a
    · simp [hab, hba]
    · cases h : a == b <;> simp [hab, hba]

theorem order_eq_gt_iff (a b : α) : order a b = .gt ↔ b < a := by
  rw [← order_eq_lt_iff, order_swap a b, Ordering.swap_eq_lt]

/-- Numbers that are defined tie only if they are equal. -/
theorem order_eq_eq_iff {a b : α} (ha : isUndefined a = false) (hb : isUndefined b = false) :
    order a b = .eq ↔ (a == b) = true := by
  constructor
  · intro h
    rcases OrderedNumber.total a b ha hb with hlt | heq | hgt
    · rw [(order_eq_lt_iff a b).mpr hlt] at h
      cases h
    · exact heq
    · rw [(order_eq_gt_iff a b).mpr hgt] at h
      cases h
  · intro heq
    cases h : order a b with
    | lt =>
      rw [OrderedNumber.ne_of_lt a b ((order_eq_lt_iff a b).mp h)] at heq
      cases heq
    | eq => rfl
    | gt =>
      rw [OrderedNumber.eq_symm, OrderedNumber.ne_of_lt b a ((order_eq_gt_iff a b).mp h)] at heq
      cases heq

theorem lt_of_eq_of_lt {a b c : α} (hab : (a == b) = true) (hbc : b < c)
    (ha : isUndefined a = false) (hc : isUndefined c = false) : a < c := by
  rcases OrderedNumber.total a c ha hc with h | h | h
  · exact h
  · -- were `a` equal to `c`, so would be `b`
    have hbc' := OrderedNumber.eq_trans b a c (OrderedNumber.eq_symm a b ▸ hab) h
    rw [OrderedNumber.ne_of_lt b c hbc] at hbc'
    cases hbc'
  · have hba := OrderedNumber.ne_of_lt b a (OrderedNumber.lt_trans b c a hbc h)
    rw [OrderedNumber.eq_symm b a, hab] at hba
    cases hba

theorem lt_of_lt_of_eq {a b c : α} (hab : a < b) (hbc : (b == c) = true)
    (ha : isUndefined a = false) (hc : isUndefined c = false) : a < c := by
  rcases OrderedNumber.total a c ha hc with h | h | h
  · exact h
  · -- were `a` equal to `c`, it would be equal to `b`
    have hab' := OrderedNumber.eq_trans a c b h (OrderedNumber.eq_symm b c ▸ hbc)
    rw [OrderedNumber.ne_of_lt a b hab] at hab'
    cases hab'
  · have hcb := OrderedNumber.ne_of_lt c b (OrderedNumber.lt_trans c a b h hab)
    rw [OrderedNumber.eq_symm c b, hbc] at hcb
    cases hcb

theorem lt_of_lt_of_atMost {a b c : α} (hab : a < b) (hbc : atMost b c = true)
    (ha : isUndefined a = false) (hc : isUndefined c = false) : a < c := by
  rw [atMost, Bool.or_eq_true, decide_eq_true_iff] at hbc
  rcases hbc with hlt | heq
  · exact OrderedNumber.lt_trans a b c hab hlt
  · exact lt_of_lt_of_eq hab heq ha hc

/-- Of two numbers that are defined, one is at most the other unless the other is less. -/
theorem atMost_iff_not_lt {a b : α} (ha : isUndefined a = false) (hb : isUndefined b = false) :
    atMost a b = true ↔ ¬ b < a := by
  rw [atMost, Bool.or_eq_true, decide_eq_true_iff]
  constructor
  · rintro (h | h) hlt
    · exact OrderedNumber.lt_asymm a b h hlt
    · have hne := OrderedNumber.ne_of_lt b a hlt
      rw [OrderedNumber.eq_symm, h] at hne
      cases hne
  · intro h
    rcases OrderedNumber.total a b ha hb with hlt | heq | hgt
    · exact Or.inl hlt
    · exact Or.inr heq
    · exact absurd hgt h

theorem atMost_trans {a b c : α} (hab : atMost a b = true) (hbc : atMost b c = true)
    (ha : isUndefined a = false) (hb : isUndefined b = false) (hc : isUndefined c = false) :
    atMost a c = true := by
  rw [atMost_iff_not_lt ha hc]
  rw [atMost_iff_not_lt ha hb] at hab
  rw [atMost_iff_not_lt hb hc] at hbc
  intro hca
  rcases OrderedNumber.total b c hb hc with h | h | h
  · exact hab (OrderedNumber.lt_trans b c a h hca)
  · exact hab (lt_of_eq_of_lt h hca hb ha)
  · exact hbc h

/-- Numbers that are defined are compared without going in circles. -/
instance instTransCmpOrder :
    Std.TransCmp (fun a b : {x : α // isUndefined x = false} => order a.1 b.1) where
  eq_swap := by
    intro a b
    exact order_swap b.1 a.1
  isLE_trans := by
    rintro ⟨a, ha⟩ ⟨b, hb⟩ ⟨c, hc⟩ hab hbc
    simp only [Ordering.isLE_iff_ne_gt, order_eq_gt_iff] at hab hbc ⊢
    rw [← atMost_iff_not_lt ha hb] at hab
    rw [← atMost_iff_not_lt hb hc] at hbc
    rw [← atMost_iff_not_lt ha hc]
    exact atMost_trans hab hbc ha hb hc

end Number

end PolyAlgebra
