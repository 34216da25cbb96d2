/-
What the canonical order leaves open.

Terms that have different powers may still tie in the canonical order, because it looks at the
largest exponent and at the names but not at the other exponents.  The sort is stable, so such
terms stay in the order they came.  What is determined is what the order looks at: in whatever
order the terms come, the results are tied place by place (`forall₂_stableSort`).  The terms in
those places, and with them the text, are determined exactly if no two terms are tied.

A sum whose terms have different powers has nothing to merge, so its canonical form is the sorted
list of the terms that are not zero (`TermSum.reduce_of_distinct`), and only sorting matters.
-/
import Mathlib
import PolyAlgebra.Expr.Text
import PolyAlgebra.Proofs.Double.Order
import PolyAlgebra.Proofs.Equality
import PolyAlgebra.Proofs.TermOrder

namespace PolyAlgebra

/-! ### Lists in order -/

section Lists

variable {β : Type} {order : β → β → Ordering}

/-- What ties with some element of a list in order does not come before the first one. -/
theorem InOrder.head_ne_gt (hswap : ∀ a b, order b a = (order a b).swap) {x y : β}
    {xs zs : List β} (h : InOrder order (x :: xs)) (htrans : TransitiveOn order zs)
    (hsub : x :: xs ⊆ zs) (hy : y ∈ zs) (htie : ∃ x' ∈ x :: xs, order x' y = .eq) :
    order x y ≠ .gt := by
  obtain ⟨x', hx', htie⟩ := htie
  have hxx' : order x x' ≠ .gt := by
    rcases List.mem_cons.mp hx' with rfl | hx'
    · rw [order_self hswap]
      simp
    · exact (List.pairwise_cons.mp h).1 x' hx'
  exact htrans x (hsub List.mem_cons_self) x' (hsub hx') y hy hxx' (by rw [htie]; simp)

/-- Lists in order whose elements tie one by one, in whatever places, tie place by place. -/
theorem forall₂_of_inOrder (hswap : ∀ a b, order b a = (order a b).swap) {xs ys : List β}
    (htrans : TransitiveOn order (xs ++ ys))
    (h : Multiset.Rel (fun a b => order a b = .eq) (xs : Multiset β) (ys : Multiset β))
    (hx : InOrder order xs) (hy : InOrder order ys) :
    List.Forall₂ (fun a b => order a b = .eq) xs ys := by
  induction xs generalizing ys with
  | nil =>
    have hnil : ys = [] := by simpa using Multiset.rel_zero_left.mp h
    rw [hnil]
    exact .nil
  | cons x xs ih =>
    cases ys with
    | nil => simp at h
    | cons y ys =>
      have hxmem : x ∈ x :: xs ++ y :: ys := by simp
      have hymem : y ∈ x :: xs ++ y :: ys := by simp
      -- each head ties with something in the other list, and so does not come after its head
      have hhead : order x y = .eq := by
        obtain ⟨y', hy', hxy'⟩ := Multiset.exists_mem_of_rel_of_mem h
          (Multiset.mem_coe.mpr List.mem_cons_self)
        obtain ⟨x', hx', hx'y⟩ := Multiset.exists_mem_of_rel_of_mem (Multiset.rel_flip.mpr h)
          (Multiset.mem_coe.mpr List.mem_cons_self)
        exact order_eq_of_ne_gt hswap
          (hx.head_ne_gt hswap htrans (List.subset_append_left _ _) hymem ⟨x', hx', hx'y⟩)
          (hy.head_ne_gt hswap htrans (List.subset_append_right _ _) hxmem
            ⟨y', hy', order_eq_symm hswap hxy'⟩)
      refine .cons hhead (ih (htrans.subset ?_) ?_ hx.of_cons hy.of_cons)
      · intro a ha
        rcases List.mem_append.mp ha with ha | ha <;> simp [ha]
      · rw [← Multiset.cons_coe, ← Multiset.cons_coe] at h
        refine TermSum.rel_of_rel_cons (fun a ha b hb hay hxb => ?_) h
        have ha' : a ∈ x :: xs ++ y :: ys := by simp [Multiset.mem_coe.mp ha]
        have hb' : b ∈ x :: xs ++ y :: ys := by simp [Multiset.mem_coe.mp hb]
        exact htrans.order_eq_trans hswap ha' hymem hb' hay (htrans.order_eq_trans hswap hymem
          hxmem hb' (order_eq_symm hswap hhead) hxb)

/-- **Sorting lists with the same elements gives lists that tie place by place.** -/
theorem forall₂_stableSort (hswap : ∀ a b, order b a = (order a b).swap) {xs ys : List β}
    (htrans : TransitiveOn order xs) (h : ys.Perm xs) :
    List.Forall₂ (fun a b => order a b = .eq) (stableSort order ys) (stableSort order xs) := by
  have hx := stableSort_perm order xs
  have hy := stableSort_perm order ys
  have hperm : (stableSort order ys).Perm (stableSort order xs) := (hy.trans h).trans hx.symm
  have hrel : Multiset.Rel (fun a b => order a b = .eq) (stableSort order ys : Multiset β)
      (stableSort order xs) := by
    rw [Multiset.coe_eq_coe.mpr hperm]
    exact Multiset.rel_refl_of_refl_on fun a _ => order_self hswap a
  refine forall₂_of_inOrder hswap (htrans.subset ?_) hrel
    (stableSort_inOrder hswap (htrans.subset h.subset)) (stableSort_inOrder hswap htrans)
  exact List.append_subset.mpr ⟨(hy.trans h).subset, hx.subset⟩

end Lists

/-! ### Terms that tie -/

variable {α : Type} [Number α]

namespace Term

/-- Nothing that the canonical order looks at tells the terms apart: they have equal degrees and
coefficients and mention the same variables. -/
structure Tied (t u : Term α) : Prop where
  degree : (t.degree == u.degree) = true
  coefficient : (t.coefficient == u.coefficient) = true
  names : t.powers.names = u.powers.names

variable [OrderedNumber α]

/-- Terms tie in the canonical order exactly if they are tied. -/
theorem canonicalOrder_eq_eq_iff {t u : Term α} (ht : t.Defined) (hu : u.Defined) :
    t.canonicalOrder u = .eq ↔ t.Tied u := by
  rw [canonicalOrder, displayOrder, Ordering.then_eq_eq, Ordering.then_eq_eq,
    Ordering.then_eq_eq, Number.order_eq_eq_iff hu.degree ht.degree,
    Number.order_eq_eq_iff hu.coefficient ht.coefficient, Nat.compare_eq_eq, compareNames_eq,
    Std.LawfulEqCmp.compare_eq_iff_eq, OrderedNumber.eq_symm u.degree,
    OrderedNumber.eq_symm u.coefficient]
  constructor
  · rintro ⟨⟨⟨hdegree, -⟩, hcoefficient⟩, hnames⟩
    exact ⟨hdegree, hcoefficient, hnames⟩
  · rintro ⟨hdegree, hcoefficient, hnames⟩
    -- the number of variables is the number of names
    have hdimension : t.dimension = u.dimension := by
      simpa [NameMap.names, dimension, NameMap.size] using congrArg List.length hnames
    exact ⟨⟨⟨hdegree, hdimension⟩, hcoefficient⟩, hnames⟩

omit [OrderedNumber α] in
/-- A term without undefined exponents has its own powers. -/
theorem Defined.hasPowersOf_self {t : Term α} (h : t.Defined) : t.hasPowersOf t = true := by
  rw [hasPowersOf, NameMap.agrees_iff, List.forall₂_same]
  intro e he
  have hdefined := h.exponents e.1 e.2 ((t.powers.mem_entries_iff e.1 e.2).mp he)
  rw [Number.isUndefined, Bool.not_eq_false'] at hdefined
  exact ⟨rfl, hdefined⟩

end Term

/-! ### Sums with different powers -/

namespace TermSum

variable {terms terms' : TermSum α}

/-- Zeros are passed over. -/
theorem merge_counted (terms : TermSum α) : merge (counted terms) = merge terms := by
  have hstep : (fun (sum : TermSum α) t => if (!t.isZero) = true then mergeStep sum t else sum)
      = mergeStep := by
    funext sum t
    cases hz : t.isZero <;> simp [mergeStep, hz]
  rw [merge, counted, List.foldl_filter, hstep, merge]

theorem isZero_of_mem_counted {t : Term α} (ht : t ∈ counted terms) : t.isZero = false := by
  simpa using (List.mem_filter.mp ht).2

/-- Where nothing can be merged, canonical form drops the zeros and sorts. -/
theorem reduce_of_distinct (hdistinct : terms.Pairwise fun t u => t.hasPowersOf u = false) :
    reduce terms = orZero (stableSort Term.canonicalOrder (counted terms)) := by
  rw [reduce, ← merge_counted, merge_eq_self (fun t ht => isZero_of_mem_counted ht)
    (hdistinct.sublist List.filter_sublist)]
  cases hcounted : counted terms with
  | nil => rfl
  | cons t rest =>
    have hne : stableSort Term.canonicalOrder (t :: rest) ≠ [] := by
      simp [stableSort_eq_nil_iff]
    rw [orZero_eq_self hne]
    rfl

theorem forall₂_orZero {R : Term α → Term α → Prop} (hzero : R Term.zero Term.zero)
    (h : List.Forall₂ R terms terms') : List.Forall₂ R (orZero terms) (orZero terms') := by
  cases h with
  | nil => exact .cons hzero .nil
  | cons ht hrest => exact .cons ht hrest

theorem perm_orZero (h : terms.Perm terms') : (orZero terms).Perm (orZero terms') := by
  cases terms with
  | nil => rw [h.nil_eq]
  | cons t rest => rwa [orZero_eq_self (List.cons_ne_nil t rest),
      orZero_eq_self fun hnil => List.cons_ne_nil t rest (hnil ▸ h).eq_nil]

variable [OrderedNumber α]

omit [OrderedNumber α] in
/-- Terms with different powers are different. -/
theorem nodup_of_distinct (hdefined : ∀ t ∈ terms, t.Defined)
    (hdistinct : terms.Pairwise fun t u => t.hasPowersOf u = false) : terms.Nodup := by
  refine hdistinct.imp_of_mem fun {t u} ht _ hne heq => ?_
  rw [← heq, (hdefined t ht).hasPowersOf_self] at hne
  cases hne

theorem distinct_perm (hdistinct : terms.Pairwise fun t u => t.hasPowersOf u = false)
    (h : terms'.Perm terms) : terms'.Pairwise fun t u => t.hasPowersOf u = false :=
  (h.pairwise_iff fun {t u} htu => hasPowersOf_symm t u ▸ htu).mpr hdistinct

end TermSum

/-! ### Sums whose terms change places -/

section Permuted

variable [OrderedNumber α] {terms terms' : TermSum α}

namespace TermSum

theorem transitiveOn_counted (hdefined : ∀ t ∈ terms, t.Defined) :
    TransitiveOn Term.canonicalOrder (counted terms) :=
  Term.canonicalOrder_transitiveOn fun t ht => hdefined t (List.mem_of_mem_filter ht)

theorem pairwise_not_tied_iff (hdefined : ∀ t ∈ terms, t.Defined) :
    (counted terms).Pairwise (fun t u => t.canonicalOrder u ≠ .eq) ↔
      (counted terms).Pairwise fun t u => ¬t.Tied u :=
  List.Pairwise.iff_of_mem fun ht hu => not_congr (Term.canonicalOrder_eq_eq_iff
    (hdefined _ (List.mem_of_mem_filter ht)) (hdefined _ (List.mem_of_mem_filter hu)))

/-- Without ties the terms that count are sorted in one way only. -/
theorem stableSort_counted_perm (hdefined : ∀ t ∈ terms, t.Defined)
    (hdistinct : terms.Pairwise fun t u => t.hasPowersOf u = false)
    (hties : (counted terms).Pairwise fun t u => ¬t.Tied u) (h : terms'.Perm terms) :
    stableSort Term.canonicalOrder (counted terms')
      = stableSort Term.canonicalOrder (counted terms) :=
  (stableSort_perm_iff Term.canonicalOrder_swap (transitiveOn_counted hdefined)
    ((nodup_of_distinct hdefined hdistinct).filter _)).mpr
      ((pairwise_not_tied_iff hdefined).mpr hties) _ (h.filter _)

theorem reduce_perm (hdistinct : terms.Pairwise fun t u => t.hasPowersOf u = false)
    (h : terms'.Perm terms) : (reduce terms').Perm (reduce terms) := by
  rw [reduce_of_distinct hdistinct, reduce_of_distinct (distinct_perm hdistinct h)]
  exact perm_orZero (((stableSort_perm _ _).trans (h.filter _)).trans (stableSort_perm _ _).symm)

/-- In whatever order the terms come, the terms of the canonical form are tied place by place. -/
theorem reduce_tied (hdefined : ∀ t ∈ terms, t.Defined)
    (hdistinct : terms.Pairwise fun t u => t.hasPowersOf u = false) (h : terms'.Perm terms) :
    List.Forall₂ Term.Tied (reduce terms') (reduce terms) := by
  have hzero : (Term.zero : Term α).Tied Term.zero :=
    (Term.canonicalOrder_eq_eq_iff Term.zero_defined Term.zero_defined).mp
      (order_self Term.canonicalOrder_swap _)
  have hsorted : ∀ {ts : TermSum α}, ts.Perm terms →
      ∀ t ∈ stableSort Term.canonicalOrder (counted ts), t.Defined := fun hts t ht =>
    hdefined t (hts.subset (List.mem_of_mem_filter ((stableSort_perm _ _).subset ht)))
  rw [reduce_of_distinct hdistinct, reduce_of_distinct (distinct_perm hdistinct h)]
  refine forall₂_orZero hzero ?_
  have hties := forall₂_stableSort Term.canonicalOrder_swap (transitiveOn_counted hdefined)
    (h.filter fun t => !t.isZero)
  refine List.forall₂_iff_zip.mpr ⟨hties.length_eq, fun {t u} htu => ?_⟩
  obtain ⟨ht, hu⟩ := List.of_mem_zip htu
  exact (Term.canonicalOrder_eq_eq_iff (hsorted h t ht) (hsorted (.refl terms) u hu)).mp
    (List.forall₂_zip hties htu)

/-- **The order of the terms is forgotten exactly if no two of them are tied.** -/
theorem reduce_perm_iff (hdefined : ∀ t ∈ terms, t.Defined)
    (hdistinct : terms.Pairwise fun t u => t.hasPowersOf u = false) :
    (∀ terms', terms'.Perm terms → reduce terms' = reduce terms) ↔
      (counted terms).Pairwise fun t u => ¬t.Tied u := by
  constructor
  · intro h
    by_cases hnil : counted terms = []
    · rw [hnil]
      exact .nil
    rw [← pairwise_not_tied_iff hdefined, ← stableSort_perm_iff Term.canonicalOrder_swap
      (transitiveOn_counted hdefined) ((nodup_of_distinct hdefined hdistinct).filter _)]
    intro ts hts
    -- the terms in the new order, and the zeros after them
    have hperm : (ts ++ terms.filter fun t => t.isZero).Perm terms :=
      (hts.append_right _).trans (by
        simpa [counted] using List.filter_append_perm (fun t : Term α => !t.isZero) terms)
    have hcounted : counted (ts ++ terms.filter fun t => t.isZero) = ts := by
      have hkept : ts.filter (fun t => !t.isZero) = ts := List.filter_eq_self.mpr fun t ht => by
        simp [isZero_of_mem_counted (hts.subset ht)]
      simp [counted, hkept, List.filter_filter]
    have heq := h _ hperm
    have hne : ∀ {us : TermSum α}, us.Perm (counted terms) →
        stableSort Term.canonicalOrder us ≠ [] := fun hus hsorted =>
      hnil ((stableSort_eq_nil_iff _ _).mp hsorted ▸ hus).nil_eq.symm
    rwa [reduce_of_distinct hdistinct, reduce_of_distinct (distinct_perm hdistinct hperm),
      hcounted, orZero_eq_self (hne hts), orZero_eq_self (hne (.refl _))] at heq
  · intro hties ts hts
    rw [reduce_of_distinct hdistinct, reduce_of_distinct (distinct_perm hdistinct hts),
      stableSort_counted_perm hdefined hdistinct hties hts]

end TermSum

namespace Expr

/-- **Terms that change places, in a sum whose terms have different powers.**  The canonical form
has the same terms in any case, and what the canonical order looks at is the same place by place.
The terms themselves stand in the same places, whatever order they come in, exactly if no two of
them are tied, zeros aside, and then the texts are the same too.  Terms with different powers are
tied if they mention the same variables and have equal coefficients and equal largest exponents. -/
theorem ofTerms_perm (hdefined : ∀ t ∈ terms, t.Defined)
    (hdistinct : terms.Pairwise fun t u => t.hasPowersOf u = false) :
    (∀ terms', terms'.Perm terms →
      (TermSum.reduce terms').Perm (TermSum.reduce terms) ∧
      List.Forall₂ Term.Tied (TermSum.reduce terms') (TermSum.reduce terms)) ∧
    ((∀ terms', terms'.Perm terms → ofTerms terms' = ofTerms terms) ↔
      (TermSum.counted terms).Pairwise fun t u => ¬t.Tied u) ∧
    ((TermSum.counted terms).Pairwise (fun t u => ¬t.Tied u) →
      ∀ terms', terms'.Perm terms → (ofTerms terms').text = (ofTerms terms).text ∧
        (Expr.sum terms').text = (Expr.sum terms).text) := by
  have hiff := TermSum.reduce_perm_iff hdefined hdistinct
  refine ⟨fun ts hts => ⟨TermSum.reduce_perm hdistinct hts,
    TermSum.reduce_tied hdefined hdistinct hts⟩, ?_, fun hties ts hts => ⟨?_, ?_⟩⟩
  · simpa [ofTerms] using hiff
  · rw [ofTerms, hiff.mpr hties ts hts, ofTerms]
  · show TermSum.sortedText _ = TermSum.sortedText _
    exact congrArg _ (TermSum.stableSort_counted_perm hdefined hdistinct hties hts)

end Expr

end Permuted

namespace Expr

/-- Doubles, with a zero, negative and fractional exponents, and two terms that are tied. -/
theorem ofTerms_perm_fractional :
    let terms : TermSum Float := [Term.ofPowers 1 [("x", 2), ("y", 0.5)], Term.zero,
      Term.ofPowers (-3) [("z", -1)], Term.ofPowers 1 [("x", 1), ("y", 2)]]
    (OrderedNumber Float ∧ (∀ t ∈ terms, t.Defined) ∧
      terms.Pairwise fun t u => t.hasPowersOf u = false) ∧
    (∀ terms', terms'.Perm terms →
      (TermSum.reduce terms').Perm (TermSum.reduce terms) ∧
      List.Forall₂ Term.Tied (TermSum.reduce terms') (TermSum.reduce terms)) ∧
    ((∀ terms', terms'.Perm terms → ofTerms terms' = ofTerms terms) ↔
      (TermSum.counted terms).Pairwise fun t u => ¬t.Tied u) ∧
    ((TermSum.counted terms).Pairwise (fun t u => ¬t.Tied u) →
      ∀ terms', terms'.Perm terms → (ofTerms terms').text = (ofTerms terms).text ∧
        (Expr.sum terms').text = (Expr.sum terms).text) := by
  intro terms
  have hdefined : ∀ t ∈ terms, t.Defined := by
    simp only [terms, List.forall_mem_cons, List.not_mem_nil, false_imp_iff, implies_true, and_true]
    exact ⟨Term.defined_ofPowers (by decide +kernel) (by decide +kernel), Term.zero_defined,
      Term.defined_ofPowers (by decide +kernel) (by decide +kernel),
      Term.defined_ofPowers (by decide +kernel) (by decide +kernel)⟩
  have hdistinct : terms.Pairwise fun t u => t.hasPowersOf u = false := by decide +kernel
  exact ⟨⟨inferInstance, hdefined, hdistinct⟩, ofTerms_perm hdefined hdistinct⟩

/-- **The order of the terms shows** where the largest exponents are those of different variables:
`x^2 y` and `x y^2` stay as they came, in the canonical form and in the text. -/
theorem ofTerms_perm_tied :
    let t : Term Float := Term.ofPowers 1 [("x", 2), ("y", 1)]
    let u : Term Float := Term.ofPowers 1 [("x", 1), ("y", 2)]
    (∀ s ∈ [t, u], s.Defined) ∧ [t, u].Pairwise (fun s s' => s.hasPowersOf s' = false) ∧
      [u, t].Perm [t, u] ∧ ofTerms [u, t] ≠ ofTerms [t, u] ∧
      (ofTerms [t, u]).text = "(x^2)(y) + (x)(y^2)" ∧
      (ofTerms [u, t]).text = "(x)(y^2) + (x^2)(y)" := by
  intro t u
  have hdefined : ∀ s ∈ [t, u], s.Defined := by
    rw [List.forall_mem_cons, List.forall_mem_singleton]
    exact ⟨Term.defined_ofPowers (by decide +kernel) (by decide +kernel),
      Term.defined_ofPowers (by decide +kernel) (by decide +kernel)⟩
  have htext : (ofTerms [t, u]).text = "(x^2)(y) + (x)(y^2)" := by decide +kernel
  have htext' : (ofTerms [u, t]).text = "(x)(y^2) + (x^2)(y)" := by decide +kernel
  have hne : ofTerms [u, t] ≠ ofTerms [t, u] := by
    intro heq
    rw [heq, htext] at htext'
    exact absurd htext' (by decide)
  exact ⟨hdefined, by decide +kernel, List.Perm.swap t u [], hne, htext, htext'⟩

end Expr

end PolyAlgebra
