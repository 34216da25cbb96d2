/-
Equality up to the tolerance.

Sums are meant to be compared as multisets: each term of one sum has a near term of its own in
the other.  The comparison is greedy, though.  It takes for each term on the left the first near
one on the right, and never goes back.  Being near is not transitive, so the term that is taken
may be the only one that a later term is near to.  Then the answer depends on which sum is on the
left and on the order of the terms.

A partner that is found is always right, so the comparison never takes sums for equal that are
not.  It finds the partners if being near is unambiguous between the two sums: terms that are
near to a common term are near to the same terms.  The greedy choice can then be exchanged for
any other (`rel_of_rel_cons`).
-/
import Mathlib
import PolyAlgebra.Double.Arithmetic
import PolyAlgebra.Expr.Equality
import PolyAlgebra.Proofs.Leaves
import PolyAlgebra.Proofs.Nearness

namespace PolyAlgebra

variable {α : Type} [Number α]

/-! ### Terms -/

namespace Term

theorem approxEq_iff (t u : Term α) : t.approxEq u = true ↔
    Number.isNear t.coefficient u.coefficient = true ∧
      (∀ name x, t.powers.get? name = some x →
        ∃ y, u.powers.get? name = some y ∧ Number.isNear y x = true) ∧
      ∀ name y, u.powers.get? name = some y → ∃ x, t.powers.get? name = some x := by
  rw [approxEq, Bool.and_eq_true, Bool.and_eq_true, and_assoc]
  refine and_congr Iff.rfl (and_congr ?_ ?_)
  · simp only [List.all_eq_true, Prod.forall, NameMap.mem_entries_iff]
    refine forall₃_congr fun name x _ => ?_
    cases u.powers.get? name <;> simp
  · simp only [List.all_eq_true, NameMap.mem_names_iff, NameMap.contains,
      Option.isSome_iff_exists, forall_exists_index]

theorem approxEq_symm [SymmetricNearness α] (t u : Term α) : t.approxEq u = u.approxEq t := by
  have himp : ∀ t u : Term α, t.approxEq u = true → u.approxEq t = true := by
    intro t u h
    obtain ⟨hcoefficient, hours, htheirs⟩ := (approxEq_iff t u).mp h
    refine (approxEq_iff u t).mpr ⟨?_, ?_, ?_⟩
    · rwa [SymmetricNearness.isNear_symm]
    · intro name y hy
      obtain ⟨x, hx⟩ := htheirs name y hy
      obtain ⟨y', hy', hnear⟩ := hours name x hx
      rw [hy] at hy'
      cases hy'
      exact ⟨x, hx, by rwa [SymmetricNearness.isNear_symm]⟩
    · intro name x hx
      obtain ⟨y, hy, -⟩ := hours name x hx
      exact ⟨y, hy⟩
  rw [Bool.eq_iff_iff]
  exact ⟨himp t u, himp u t⟩

end Term

/-! ### Matching -/

namespace TermSum

/-- What the comparison asks of a term on the left and one on the right. -/
def Near (t u : Term α) : Prop := u.approxEq t = true

/-- The terms that count for the comparison. -/
def counted (terms : TermSum α) : TermSum α := terms.filter fun t => !t.isZero

/-- Terms on the left that are near to a common term on the right are near to the same terms. -/
def Unambiguous (left right : TermSum α) : Prop :=
  ∀ s ∈ counted left, ∀ t ∈ counted left, ∀ u ∈ counted right, ∀ v ∈ counted right,
    Near s u → Near t u → Near t v → Near s v

instance instDecidableNear (t u : Term α) : Decidable (Near t u) :=
  inferInstanceAs (Decidable (u.approxEq t = true))

instance instDecidableUnambiguous (left right : TermSum α) : Decidable (Unambiguous left right) :=
  inferInstanceAs (Decidable (∀ s ∈ counted left, ∀ t ∈ counted left, ∀ u ∈ counted right,
    ∀ v ∈ counted right, Near s u → Near t u → Near t v → Near s v))

/-- **Equal as multisets**: each term of one sum has a near term of its own in the other. -/
def SameTerms (left right : TermSum α) : Prop :=
  Multiset.Rel Near (counted left : Multiset (Term α)) (counted right : Multiset (Term α))

/-- What is taken out and what is left make up the list. -/
theorem perm_swapRemove {β : Type} {xs : List β} {index : Nat} (hindex : index < xs.length) :
    xs.Perm (xs[index] :: swapRemove xs index) := by
  have hne : xs ≠ [] := List.ne_nil_of_length_pos (by omega)
  have hlast : xs.getLast? = some (xs.getLast hne) := List.getLast?_eq_some_getLast hne
  -- the last element stays the last one when it is put in the place of another
  have hset : (xs.set index (xs.getLast hne)).getLast? = some (xs.getLast hne) := by
    rw [List.getLast?_eq_getElem?, List.getElem?_set, List.length_set]
    split
    · simp
    · rw [← List.getLast?_eq_getElem?, hlast]
  have hdrop : swapRemove xs index ++ [xs.getLast hne] = xs.set index (xs.getLast hne) := by
    rw [swapRemove, hlast]
    exact List.dropLast_append_getLast? _ hset
  have hperm : (xs.getLast hne :: swapRemove xs index).Perm
      (xs.getLast hne :: xs.eraseIdx index) := by
    refine (List.perm_append_singleton _ _).symm.trans ?_
    rw [hdrop]
    exact List.set_perm_cons_eraseIdx hindex _
  exact (List.getElem_cons_eraseIdx_perm hindex).symm.trans (hperm.cons_inv.symm.cons _)

/-- Which of several partners is taken makes no difference if being near is unambiguous. -/
theorem rel_of_rel_cons {β : Type} {R : β → β → Prop} {s t : Multiset β} {a b : β}
    (hR : ∀ a' ∈ s, ∀ b' ∈ t, R a' b → R a b' → R a' b') (h : Multiset.Rel R (a ::ₘ s) (b ::ₘ t)) :
    Multiset.Rel R s t := by
  obtain ⟨b', t', hab', hrest, heq⟩ := Multiset.rel_cons_left.mp h
  rcases Multiset.cons_eq_cons.mp heq with ⟨rfl, rfl⟩ | ⟨-, u, rfl, rfl⟩
  · exact hrest
  · -- the partner of `a` is another one, so `b` is the partner of some `a'`
    obtain ⟨a', s', ha', hothers, rfl⟩ := Multiset.rel_cons_right.mp hrest
    have hR' := hR a' (Multiset.mem_cons_self a' s') b' (Multiset.mem_cons_self b' u)
    exact Multiset.Rel.cons (hR' ha' hab') hothers

/-- **A match that is found pairs up near terms**, and all of them. -/
theorem rel_of_matchTerms {left right : TermSum α} (h : matchTerms left right = true) :
    Multiset.Rel Near (left : Multiset (Term α)) (right : Multiset (Term α)) := by
  induction left generalizing right with
  | nil =>
    rw [matchTerms, List.isEmpty_iff] at h
    subst h
    exact Multiset.Rel.zero
  | cons t rest ih =>
    rw [matchTerms] at h
    split at h
    · rename_i index hfound
      obtain ⟨hindex, hnear, -⟩ := List.findIdx?_eq_some_iff_getElem.mp hfound
      rw [Multiset.coe_eq_coe.mpr (perm_swapRemove hindex), ← Multiset.cons_coe,
        ← Multiset.cons_coe]
      exact Multiset.Rel.cons hnear (ih h)
    · cases h

/-- **If being near is unambiguous, a match is found whenever there is one.** -/
theorem matchTerms_of_rel {left right : TermSum α}
    (hunambiguous : ∀ s ∈ left, ∀ t ∈ left, ∀ u ∈ right, ∀ v ∈ right,
      Near s u → Near t u → Near t v → Near s v)
    (h : Multiset.Rel Near (left : Multiset (Term α)) (right : Multiset (Term α))) :
    matchTerms left right = true := by
  induction left generalizing right with
  | nil =>
    have hright : right = [] := by
      simpa using Multiset.rel_zero_left.mp h
    rw [hright]
    rfl
  | cons t rest ih =>
    rw [← Multiset.cons_coe] at h
    obtain ⟨v, hv, hnear⟩ : ∃ v ∈ right, Near t v := by
      obtain ⟨v, others, hnear, -, hright⟩ := Multiset.rel_cons_left.mp h
      refine ⟨v, Multiset.mem_coe.mp ?_, hnear⟩
      rw [hright]
      exact Multiset.mem_cons_self v others
    rw [matchTerms]
    split
    · rename_i index hfound
      obtain ⟨hindex, hnear, -⟩ := List.findIdx?_eq_some_iff_getElem.mp hfound
      have hperm := perm_swapRemove hindex
      have hmem : ∀ w ∈ swapRemove right index, w ∈ right := fun w hw =>
        hperm.mem_iff.mpr (List.mem_cons_of_mem _ hw)
      refine ih (fun s hs s' hs' w hw w' hw' => hunambiguous s (List.mem_cons_of_mem t hs) s'
        (List.mem_cons_of_mem t hs') w (hmem w hw) w' (hmem w' hw')) ?_
      rw [Multiset.coe_eq_coe.mpr hperm, ← Multiset.cons_coe] at h
      refine rel_of_rel_cons (fun s hs w hw hfirst htw => ?_) h
      exact hunambiguous s (List.mem_cons_of_mem t hs) t List.mem_cons_self _
        (List.getElem_mem hindex) w (hmem w hw) hfirst hnear htw
    · rename_i hnone
      have := List.findIdx?_eq_none_iff.mp hnone v hv
      rw [Near, this] at hnear
      cases hnear

/-! ### Sums -/

variable {left right : TermSum α}

theorem approxEq_eq (left right : TermSum α) : approxEq left right
    = ((counted left).length == (counted right).length
        && matchTerms (counted left) (counted right)) := rfl

/-- **Sums that are taken for equal are equal as multisets**, whatever the order. -/
theorem sameTerms_of_approxEq (h : approxEq left right = true) : SameTerms left right := by
  rw [approxEq_eq, Bool.and_eq_true] at h
  exact rel_of_matchTerms h.2

/-- **The comparison is one of multisets** if being near is unambiguous. -/
theorem approxEq_iff_sameTerms (hunambiguous : Unambiguous left right) :
    approxEq left right = true ↔ SameTerms left right := by
  refine ⟨sameTerms_of_approxEq, fun h => ?_⟩
  have hlength := Multiset.card_eq_card_of_rel h
  rw [Multiset.coe_card, Multiset.coe_card] at hlength
  rw [approxEq_eq, hlength, beq_self_eq_true, Bool.true_and]
  exact matchTerms_of_rel hunambiguous h

theorem Unambiguous.perm {left' right' : TermSum α} (h : Unambiguous left right)
    (hl : left.Perm left') (hr : right.Perm right') : Unambiguous left' right' := by
  have hl' := fun t => (hl.filter fun t => !t.isZero).mem_iff (a := t)
  have hr' := fun t => (hr.filter fun t => !t.isZero).mem_iff (a := t)
  intro s hs t ht u hu v hv
  exact h s ((hl' s).mpr hs) t ((hl' t).mpr ht) u ((hr' u).mpr hu) v ((hr' v).mpr hv)

/-- The order of the terms is no matter of the multisets. -/
theorem sameTerms_perm {left' right' : TermSum α} (hl : left.Perm left')
    (hr : right.Perm right') : SameTerms left right ↔ SameTerms left' right' := by
  have hleft : (counted left : Multiset (Term α)) = counted left' :=
    Multiset.coe_eq_coe.mpr (hl.filter _)
  have hright : (counted right : Multiset (Term α)) = counted right' :=
    Multiset.coe_eq_coe.mpr (hr.filter _)
  rw [SameTerms, SameTerms, hleft, hright]

theorem approxEq_perm {left' right' : TermSum α} (h : Unambiguous left right)
    (hl : left.Perm left') (hr : right.Perm right') :
    approxEq left' right' = approxEq left right := by
  rw [Bool.eq_iff_iff, approxEq_iff_sameTerms (h.perm hl hr), approxEq_iff_sameTerms h,
    sameTerms_perm hl hr]

section Symmetric

variable [SymmetricNearness α]

theorem near_symm {t u : Term α} : Near t u ↔ Near u t := by
  rw [Near, Near, Term.approxEq_symm]

theorem Unambiguous.symm (h : Unambiguous left right) : Unambiguous right left := by
  intro s hs t ht u hu v hv hsu htu htv
  exact near_symm.mp (h v hv u hu t ht s hs (near_symm.mp htv) (near_symm.mp htu)
    (near_symm.mp hsu))

theorem SameTerms.symm (h : SameTerms left right) : SameTerms right left := by
  refine Multiset.rel_flip.mp (h.mono fun t _ u _ hnear => ?_)
  exact near_symm.mp hnear

theorem approxEq_symm (h : Unambiguous left right) : approxEq left right = approxEq right left := by
  rw [Bool.eq_iff_iff, approxEq_iff_sameTerms h, approxEq_iff_sameTerms h.symm]
  exact ⟨SameTerms.symm, SameTerms.symm⟩

end Symmetric

section Exact

variable {K : Type} [Field K] [LinearOrder K] [FloorRing K] [Unsettled K]
  [IsStrictOrderedRing K]

/-- Whole exponents that are near to a common one are equal. -/
theorem eq_of_isNear {m n : ℤ} {x : K} (hm : Number.isNear (m : K) x = true)
    (hn : Number.isNear (n : K) x = true) : m = n := by
  rw [Number.isNear, decide_eq_true_iff, Exact.abs_eq, Exact.tolerance_eq] at hm hn
  have hlt : |(m : K) - n| < 1 := by
    calc |(m : K) - n| ≤ |(m : K) - x| + |x - n| := abs_sub_le _ _ _
      _ = |(m : K) - x| + |(n : K) - x| := by rw [abs_sub_comm x]
      _ < 1 / 1000000 + 1 / 1000000 := add_lt_add hm hn
      _ < 1 := by norm_num
  have hint : |m - n| < 1 := by exact_mod_cast hlt
  exact sub_eq_zero.mp (Int.abs_lt_one_iff.mp hint)

theorem powers_eq_of_near {s t u : Term K}
    (hs : ∀ name exponent, s.powers.get? name = some exponent → ∃ n : ℤ, exponent = n)
    (ht : ∀ name exponent, t.powers.get? name = some exponent → ∃ n : ℤ, exponent = n)
    (hsu : Near s u) (htu : Near t u) : s.powers = t.powers := by
  obtain ⟨-, hexponents, hnames⟩ := (Term.approxEq_iff u s).mp hsu
  obtain ⟨-, hexponents', hnames'⟩ := (Term.approxEq_iff u t).mp htu
  refine NameMap.ext fun name => ?_
  cases hu : u.powers.get? name with
  | none =>
    have hnone : ∀ w : Term K, (∀ name x, w.powers.get? name = some x →
        ∃ y, u.powers.get? name = some y) → w.powers.get? name = none := by
      intro w hw
      by_contra hsome
      obtain ⟨x, hx⟩ := Option.ne_none_iff_exists'.mp hsome
      obtain ⟨y, hy⟩ := hw name x hx
      rw [hu] at hy
      cases hy
    rw [hnone s hnames, hnone t hnames']
  | some y =>
    obtain ⟨x, hx, hnear⟩ := hexponents name y hu
    obtain ⟨x', hx', hnear'⟩ := hexponents' name y hu
    obtain ⟨m, rfl⟩ := hs name x hx
    obtain ⟨n, rfl⟩ := ht name x' hx'
    rw [hx, hx', eq_of_isNear hnear hnear']

/-- In exact arithmetic whole exponents are near only if they are equal, so nothing is ambiguous
about a canonical sum of them. -/
theorem Canonical.unambiguous {left : TermSum K} (h : Canonical left)
    (hwhole : ∀ t ∈ left, ∀ name exponent, t.powers.get? name = some exponent →
      ∃ n : ℤ, exponent = n) (right : TermSum K) : Unambiguous left right := by
  intro s hs t ht u _ v _ hsu htu htv
  rw [counted, List.mem_filter] at hs ht
  have hpowers := powers_eq_of_near (hwhole s hs.1) (hwhole t ht.1) hsu htu
  have heq : s = t := h.eq_of_monomial_eq hs.1 ht.1 (congrArg NameMap.toFinsupp hpowers)
  exact heq ▸ htv

end Exact

end TermSum

/-! ### Trees -/

namespace Expr

variable [SymmetricNearness α]

omit [SymmetricNearness α] in
/-- The arguments of a call are compared one by one. -/
theorem allApproxEq_symm {arguments arguments' : List (Expr α)}
    (h : ∀ e ∈ arguments, ∀ e' ∈ arguments', e.approxEq e' = e'.approxEq e) :
    allApproxEq arguments arguments' = allApproxEq arguments' arguments := by
  induction arguments generalizing arguments' with
  | nil => cases arguments' <;> rfl
  | cons e rest ih =>
    cases arguments' with
    | nil => rfl
    | cons e' rest' =>
      have hrest := ih fun f hf f' hf' =>
        h f (List.mem_cons_of_mem e hf) f' (List.mem_cons_of_mem e' hf')
      rw [allApproxEq, allApproxEq, hrest, h e List.mem_cons_self e' List.mem_cons_self]

/-- **It does not matter which of two expressions is on the left** if being near is unambiguous
between the sums that they are made of. -/
theorem approxEq_symm {a b : Expr α}
    (h : ∀ left ∈ a.leafSums, ∀ right ∈ b.leafSums, TermSum.Unambiguous left right) :
    a.approxEq b = b.approxEq a := by
  induction a using Expr.induct generalizing b with
  | sum left =>
    cases b with
    | sum right =>
      rw [approxEq, approxEq]
      exact TermSum.approxEq_symm (h left List.mem_cons_self right List.mem_cons_self)
    | binary op' left' right' => rfl
    | call f' arguments' => rfl
  | binary op left right ihl ihr =>
    cases b with
    | sum right => rfl
    | binary op' left' right' =>
      have hl : ∀ e, (∀ s ∈ e.leafSums, s ∈ (Expr.binary op' left' right').leafSums) →
          left.approxEq e = e.approxEq left := fun e he =>
        ihl fun s hs t ht => h s (List.mem_append_left _ hs) t (he t ht)
      have hr : ∀ e, (∀ s ∈ e.leafSums, s ∈ (Expr.binary op' left' right').leafSums) →
          right.approxEq e = e.approxEq right := fun e he =>
        ihr fun s hs t ht => h s (List.mem_append_right _ hs) t (he t ht)
      have hleft : ∀ s ∈ left'.leafSums, s ∈ (Expr.binary op' left' right').leafSums :=
        fun s hs => List.mem_append_left _ hs
      have hright : ∀ s ∈ right'.leafSums, s ∈ (Expr.binary op' left' right').leafSums :=
        fun s hs => List.mem_append_right _ hs
      rw [approxEq, approxEq, hl left' hleft, hr right' hright, hl right' hright, hr left' hleft]
      by_cases hop : op = op'
      · subst hop
        cases op.isCommutative <;> simp [Bool.and_comm]
      · have hne : (op == op') = false := by simpa using hop
        have hne' : (op' == op) = false := by simpa using Ne.symm hop
        rw [hne, hne']
        rfl
    | call f' arguments' => rfl
  | call f arguments ih =>
    cases b with
    | sum right => rfl
    | binary op' left' right' => rfl
    | call f' arguments' =>
      have harguments : allApproxEq arguments arguments' = allApproxEq arguments' arguments := by
        refine allApproxEq_symm fun e he e' he' => ih e he fun s hs t ht => h s ?_ t ?_
        · rw [leafSums, leafSumsAll_eq_flatMap]
          exact List.mem_flatMap.mpr ⟨e, he, hs⟩
        · rw [leafSums, leafSumsAll_eq_flatMap]
          exact List.mem_flatMap.mpr ⟨e', he', ht⟩
      rw [approxEq, approxEq, harguments]
      by_cases hf : f = f'
      · rw [hf]
      · have hne : (f == f') = false := by simpa using hf
        have hne' : (f' == f) = false := by simpa using Ne.symm hf
        rw [hne, hne']

/-- **Where being near is unambiguous, expressions are compared as they should be.**  It does not
matter which one is on the left.  Their sums are compared as multisets, so the order in which
terms are stored does not matter either. -/
theorem approxEq_unambiguous {a b : Expr α}
    (h : ∀ left ∈ a.leafSums, ∀ right ∈ b.leafSums, TermSum.Unambiguous left right) :
    a.approxEq b = b.approxEq a ∧
      ∀ left ∈ a.leafSums, ∀ right ∈ b.leafSums,
        ((Expr.sum left).approxEq (.sum right) = true ↔ TermSum.SameTerms left right) ∧
        ∀ left' right', left.Perm left' → right.Perm right' →
          (Expr.sum left').approxEq (.sum right') = (Expr.sum left).approxEq (.sum right) := by
  refine ⟨approxEq_symm h, fun left hleft right hright => ⟨?_, ?_⟩⟩
  · rw [approxEq]
    exact TermSum.approxEq_iff_sameTerms (h left hleft right hright)
  · intro left' right' hl hr
    rw [approxEq, approxEq]
    exact TermSum.approxEq_perm (h left hleft right hright) hl hr

/-- The sum of the powers of one variable with these exponents. -/
def sumOfPowers (exponents : List Float) : Expr Float :=
  .sum (exponents.map fun exponent => Term.ofPowers 1 [("x", exponent)])

/-- Doubles, in a tree with operands the other way round.  The exponents of two terms are all near
each other. -/
theorem approxEq_unambiguous_nested :
    let a : Expr Float := .binary .add (sumOfPowers [1, 1.0000004, 3]) (sumOfPowers [2])
    let b : Expr Float := .binary .add (sumOfPowers [2.0000004]) (sumOfPowers [3, 1.0000004, 1])
    (SymmetricNearness Float ∧
      ∀ left ∈ a.leafSums, ∀ right ∈ b.leafSums, TermSum.Unambiguous left right) ∧
    a.approxEq b = b.approxEq a ∧
      ∀ left ∈ a.leafSums, ∀ right ∈ b.leafSums,
        ((Expr.sum left).approxEq (.sum right) = true ↔ TermSum.SameTerms left right) ∧
        ∀ left' right', left.Perm left' → right.Perm right' →
          (Expr.sum left').approxEq (.sum right') = (Expr.sum left).approxEq (.sum right) := by
  intro a b
  have h : ∀ left ∈ a.leafSums, ∀ right ∈ b.leafSums, TermSum.Unambiguous left right := by
    decide +kernel
  exact ⟨⟨inferInstance, h⟩, approxEq_unambiguous h⟩

/-- **The greedy choice shows** where exponents lie closely together: finite canonical sums are
equal one way round and not the other, and they are again if two terms change places. -/
theorem approxEq_greedy :
    let a := sumOfPowers [1.0000016, 1.0000012, 1]
    let b := sumOfPowers [1.0000008, 1.0000004, 1]
    let b' := sumOfPowers [1.0000004, 1.0000008, 1]
    (∀ t ∈ a.leafTerms ++ b.leafTerms, Number.isFinite t.coefficient = true ∧
        ∀ exponent ∈ t.powers.values, Number.isFinite exponent = true) ∧
      b.leafTerms.Perm b'.leafTerms ∧
      a.approxEq b = true ∧ b.approxEq a = false ∧ b'.approxEq a = true := by
  refine ⟨by decide +kernel, ?_, by decide +kernel, by decide +kernel, by decide +kernel⟩
  exact List.Perm.swap _ _ _

end Expr

end PolyAlgebra
