/-
What the stable sort achieves.

Sorting by insertion is right as soon as the comparison can be turned round and does not go
in circles.  The second condition is needed only of the elements that are in the list, which
matters because terms with undefined numbers do not compare at all.

Two facts are used later: the result is in order, and a list in order is left as it is.  For
the second it is enough that neighbours are in order, and that much a sorted list has whatever
the comparison does.  So sorting twice is sorting once, also where some elements do not compare.

Elements that tie stay in the order they came.  So the result says nothing about that order
exactly if no two elements tie (`stableSort_perm_iff`).
-/
import Mathlib
import PolyAlgebra.Sorting

namespace PolyAlgebra

variable {β : Type} {order : β → β → Ordering}

/-- No element stands after one that it comes before. -/
def InOrder (order : β → β → Ordering) (xs : List β) : Prop :=
  xs.Pairwise (fun a b => order a b ≠ .gt)

/-- The comparison does not go in circles on a list. -/
def TransitiveOn (order : β → β → Ordering) (xs : List β) : Prop :=
  ∀ a ∈ xs, ∀ b ∈ xs, ∀ c ∈ xs, order a b ≠ .gt → order b c ≠ .gt → order a c ≠ .gt

theorem TransitiveOn.subset {xs ys : List β} (h : TransitiveOn order ys) (hsub : xs ⊆ ys) :
    TransitiveOn order xs :=
  fun a ha b hb c hc => h a (hsub ha) b (hsub hb) c (hsub hc)

/-- A total preorder of the elements with a property: comparing the other way round gives the
opposite, not coming after is transitive, and to tie is an equivalence. -/
structure Consistent (order : β → β → Ordering) (P : β → Prop) : Prop where
  swap : ∀ a b, order b a = (order a b).swap
  trans : ∀ a b c, P a → P b → P c → order a b ≠ .gt → order b c ≠ .gt → order a c ≠ .gt
  tie : Equivalence fun a b : {a // P a} => order a.1 b.1 = .eq

theorem Consistent.of_transCmp {P : β → Prop} (hswap : ∀ a b, order b a = (order a b).swap)
    (h : Std.TransCmp fun a b : {a // P a} => order a.1 b.1) : Consistent order P := by
  refine ⟨hswap, fun a b c ha hb hc hab hbc => ?_, fun a => ?_, fun hab => ?_, fun hab hbc => ?_⟩
  · have htrans := h.isLE_trans (a := ⟨a, ha⟩) (b := ⟨b, hb⟩) (c := ⟨c, hc⟩)
    simp only [Ordering.isLE_iff_ne_gt] at htrans
    exact htrans hab hbc
  · exact @Std.ReflCmp.compare_self _ (fun a b : {a // P a} => order a.1 b.1) _ a
  · exact h.eq_symm hab
  · exact h.eq_trans hab hbc

theorem Consistent.transitiveOn {P : β → Prop} (h : Consistent order P) {xs : List β}
    (hxs : ∀ a ∈ xs, P a) : TransitiveOn order xs :=
  fun a ha b hb c hc => h.trans a b c (hxs a ha) (hxs b hb) (hxs c hc)

theorem mem_placeFromEnd {x a : β} {placed : List β} :
    a ∈ placeFromEnd order x placed ↔ a = x ∨ a ∈ placed := by
  rw [(placeFromEnd_perm order x placed).mem_iff, List.mem_cons]

/-- Putting an element into its place keeps a list in order; the list is held backwards. -/
theorem placeFromEnd_inOrder (hswap : ∀ a b, order b a = (order a b).swap) {x : β}
    {placed : List β} (htrans : TransitiveOn order (x :: placed))
    (h : placed.Pairwise (fun a b => order b a ≠ .gt)) :
    (placeFromEnd order x placed).Pairwise (fun a b => order b a ≠ .gt) := by
  induction placed with
  | nil => simp [placeFromEnd]
  | cons y rest ih =>
    obtain ⟨hhead, htail⟩ := List.pairwise_cons.mp h
    rw [placeFromEnd]
    by_cases hlt : order x y = .lt
    · rw [if_pos hlt]
      refine List.pairwise_cons.mpr ⟨?_, ih (htrans.subset (by simp)) htail⟩
      intro a ha
      rcases mem_placeFromEnd.mp ha with rfl | ha
      · rw [hlt]
        simp
      · exact hhead a ha
    · rw [if_neg hlt]
      have hyx : order y x ≠ .gt := by
        rw [hswap x y, ne_eq, Ordering.swap_eq_gt]
        exact hlt
      refine List.pairwise_cons.mpr ⟨?_, h⟩
      intro a ha
      rcases List.mem_cons.mp ha with rfl | ha'
      · exact hyx
      · exact htrans a (List.mem_cons_of_mem _ ha) y (by simp) x (by simp) (hhead a ha') hyx

theorem foldl_placeFromEnd_inOrder (hswap : ∀ a b, order b a = (order a b).swap) :
    ∀ (xs placed : List β), TransitiveOn order (xs ++ placed) →
      placed.Pairwise (fun a b => order b a ≠ .gt) →
      (xs.foldl (fun placed x => placeFromEnd order x placed) placed).Pairwise
        (fun a b => order b a ≠ .gt) := by
  intro xs
  induction xs with
  | nil => intro placed _ h; exact h
  | cons x rest ih =>
    intro placed htrans h
    refine ih _ (htrans.subset ?_) (placeFromEnd_inOrder hswap (htrans.subset ?_) h)
    · intro a ha
      rcases List.mem_append.mp ha with ha | ha
      · simp [ha]
      · rcases mem_placeFromEnd.mp ha with rfl | ha <;> simp [*]
    · intro a ha
      rcases List.mem_cons.mp ha with rfl | ha <;> simp [*]

/-- **Sorting puts a list in order.** -/
theorem stableSort_inOrder (hswap : ∀ a b, order b a = (order a b).swap) {xs : List β}
    (htrans : TransitiveOn order xs) : InOrder order (stableSort order xs) := by
  rw [InOrder, stableSort, List.pairwise_reverse]
  exact foldl_placeFromEnd_inOrder hswap xs [] (by simpa using htrans) List.Pairwise.nil

theorem head?_placeFromEnd {x a : β} {placed : List β}
    (h : a ∈ (placeFromEnd order x placed).head?) : a = x ∨ a ∈ placed.head? := by
  cases placed with
  | nil =>
    rw [placeFromEnd, List.head?_cons, Option.mem_some] at h
    exact Or.inl h.symm
  | cons y rest =>
    rw [placeFromEnd] at h
    split at h
    · exact Or.inr h
    · rw [List.head?_cons, Option.mem_some] at h
      exact Or.inl h.symm

/-- Neighbours are in order after each insertion, even if the comparison goes in circles. -/
theorem placeFromEnd_isChain (hswap : ∀ a b, order b a = (order a b).swap) (x : β)
    {placed : List β} (h : placed.IsChain (fun a b => order b a ≠ .gt)) :
    (placeFromEnd order x placed).IsChain (fun a b => order b a ≠ .gt) := by
  induction placed with
  | nil => exact List.isChain_singleton x
  | cons y rest ih =>
    obtain ⟨hhead, htail⟩ := List.isChain_cons.mp h
    rw [placeFromEnd]
    by_cases hlt : order x y = .lt
    · rw [if_pos hlt]
      refine List.isChain_cons.mpr ⟨?_, ih htail⟩
      intro a ha
      rcases head?_placeFromEnd ha with rfl | ha
      · rw [hlt]
        simp
      · exact hhead a ha
    · rw [if_neg hlt]
      refine List.isChain_cons_cons.mpr ⟨?_, h⟩
      rw [hswap x y, ne_eq, Ordering.swap_eq_gt]
      exact hlt

/-- Sorting puts neighbours in order, even if the comparison goes in circles. -/
theorem stableSort_isChain (hswap : ∀ a b, order b a = (order a b).swap) (xs : List β) :
    (stableSort order xs).IsChain (fun a b => order a b ≠ .gt) := by
  have key : ∀ ys placed : List β, placed.IsChain (fun a b => order b a ≠ .gt) →
      (ys.foldl (fun placed x => placeFromEnd order x placed) placed).IsChain
        (fun a b => order b a ≠ .gt) := by
    intro ys
    induction ys with
    | nil => intro placed h; exact h
    | cons y rest ih =>
      intro placed h
      exact ih _ (placeFromEnd_isChain hswap y h)
  rw [stableSort, List.isChain_reverse]
  exact key xs [] List.isChain_nil

theorem placeFromEnd_eq_cons (hswap : ∀ a b, order b a = (order a b).swap) {x : β}
    {placed : List β} (h : ∀ a ∈ placed.head?, order a x ≠ .gt) :
    placeFromEnd order x placed = x :: placed := by
  cases placed with
  | nil => rfl
  | cons y rest =>
    have hxy : order x y ≠ .lt := by
      rw [hswap y x, ne_eq, Ordering.swap_eq_lt]
      exact h y rfl
    rw [placeFromEnd, if_neg hxy]

/-- **A list whose neighbours are in order is sorted already.** -/
theorem stableSort_eq_self (hswap : ∀ a b, order b a = (order a b).swap) {xs : List β}
    (h : xs.IsChain (fun a b => order a b ≠ .gt)) : stableSort order xs = xs := by
  have key : ∀ (ys placed : List β),
      (placed.reverse ++ ys).IsChain (fun a b => order a b ≠ .gt) →
      ys.foldl (fun placed x => placeFromEnd order x placed) placed = ys.reverse ++ placed := by
    intro ys
    induction ys with
    | nil => intro placed _; rfl
    | cons y rest ih =>
      intro placed hin
      obtain ⟨-, -, hcross⟩ := List.isChain_append.mp hin
      have hplace : placeFromEnd order y placed = y :: placed := by
        refine placeFromEnd_eq_cons hswap fun a ha => hcross a ?_ y rfl
        rwa [List.getLast?_reverse]
      rw [List.foldl_cons, hplace, ih (y :: placed) (by simpa using hin)]
      simp
  rw [stableSort, key xs [] (by simpa using h)]
  simp

/-! ### Elements that tie -/

theorem order_self (hswap : ∀ a b, order b a = (order a b).swap) (a : β) : order a a = .eq := by
  have h := hswap a a
  cases ho : order a a with
  | lt => rw [ho] at h; cases h
  | eq => rfl
  | gt => rw [ho] at h; cases h

theorem order_eq_symm (hswap : ∀ a b, order b a = (order a b).swap) {a b : β}
    (hab : order a b = .eq) : order b a = .eq := by
  rw [hswap a b, hab]
  rfl

/-- Two elements of which neither stands behind the other tie. -/
theorem order_eq_of_ne_gt (hswap : ∀ a b, order b a = (order a b).swap) {a b : β}
    (hab : order a b ≠ .gt) (hba : order b a ≠ .gt) : order a b = .eq := by
  rw [hswap a b, ne_eq, Ordering.swap_eq_gt] at hba
  cases h : order a b with
  | lt => exact absurd h hba
  | eq => rfl
  | gt => exact absurd h hab

theorem TransitiveOn.order_eq_trans (hswap : ∀ a b, order b a = (order a b).swap) {xs : List β}
    (h : TransitiveOn order xs) {a b c : β} (ha : a ∈ xs) (hb : b ∈ xs) (hc : c ∈ xs)
    (hab : order a b = .eq) (hbc : order b c = .eq) : order a c = .eq := by
  have hle : ∀ {a b}, order a b = .eq → order a b ≠ .gt := fun h => by rw [h]; simp
  have hba := order_eq_symm hswap hab
  have hcb := order_eq_symm hswap hbc
  exact order_eq_of_ne_gt hswap (h a ha b hb c hc (hle hab) (hle hbc))
    (h c hc b hb a ha (hle hcb) (hle hba))

theorem sublist_placeFromEnd (x : β) (placed : List β) :
    placed.Sublist (placeFromEnd order x placed) := by
  induction placed with
  | nil => exact List.nil_sublist _
  | cons y rest ih =>
    rw [placeFromEnd]
    split
    · exact ih.cons_cons y
    · exact List.sublist_cons_self x _

theorem sublist_foldl_placeFromEnd (xs placed : List β) :
    placed.Sublist (xs.foldl (fun placed x => placeFromEnd order x placed) placed) := by
  induction xs generalizing placed with
  | nil => exact List.Sublist.refl _
  | cons x rest ih => exact (sublist_placeFromEnd x placed).trans (ih _)

/-- An element does not move past one that it is not less than. -/
theorem pair_sublist_placeFromEnd {x a : β} {placed : List β} (ha : a ∈ placed)
    (hxa : order x a ≠ .lt) : [x, a].Sublist (placeFromEnd order x placed) := by
  induction placed with
  | nil => cases ha
  | cons y rest ih =>
    rw [placeFromEnd]
    by_cases hlt : order x y = .lt
    · rw [if_pos hlt]
      rcases List.mem_cons.mp ha with rfl | ha
      · exact absurd hlt hxa
      · exact (ih ha).cons y
    · rw [if_neg hlt]
      exact (List.singleton_sublist.mpr ha).cons_cons x

/-- **Sorting is stable**: an element stays before a later one that is not less. -/
theorem pair_sublist_stableSort {a b : β} {xs : List β} (h : [a, b].Sublist xs)
    (hba : order b a ≠ .lt) : [a, b].Sublist (stableSort order xs) := by
  obtain ⟨before, tail, rfl, ha, hb⟩ := List.cons_sublist_iff.mp h
  obtain ⟨between, after, rfl⟩ := List.append_of_mem (List.singleton_sublist.mp hb)
  have hplaced : a ∈ (before ++ between).foldl (fun placed x => placeFromEnd order x placed) [] := by
    rw [(foldl_placeFromEnd_perm order _ _).mem_iff, List.append_nil]
    exact List.mem_append_left between ha
  rw [stableSort, ← List.append_assoc, List.foldl_append, List.foldl_cons, ← List.reverse_sublist,
    List.reverse_reverse]
  exact (pair_sublist_placeFromEnd hplaced hba).trans (sublist_foldl_placeFromEnd after _)

/-- A list without repetitions has two elements in one order only. -/
theorem not_sublist_swap {a b : β} {xs : List β} (hnodup : xs.Nodup) (hab : [a, b].Sublist xs) :
    ¬[b, a].Sublist xs := by
  induction xs with
  | nil => cases hab
  | cons x rest ih =>
    intro hba
    obtain ⟨hx, hrest⟩ := List.nodup_cons.mp hnodup
    rcases List.sublist_cons_iff.mp hab with htail | ⟨_, hcons, htail⟩
    · rcases List.sublist_cons_iff.mp hba with htail' | ⟨_, hcons, -⟩
      · exact ih hrest htail htail'
      · obtain ⟨rfl, -⟩ := List.cons.inj hcons
        exact hx (htail.subset (List.mem_cons_of_mem a List.mem_cons_self))
    · obtain ⟨rfl, rfl⟩ := List.cons.inj hcons
      rcases List.sublist_cons_iff.mp hba with htail' | ⟨_, hcons, -⟩
      · exact hx (htail'.subset (List.mem_cons_of_mem b List.mem_cons_self))
      · obtain ⟨rfl, -⟩ := List.cons.inj hcons
        exact hx (htail.subset List.mem_cons_self)

/-- **Sorting forgets the order of a list exactly if no two elements tie.** -/
theorem stableSort_perm_iff (hswap : ∀ a b, order b a = (order a b).swap) {xs : List β}
    (htrans : TransitiveOn order xs) (hnodup : xs.Nodup) :
    (∀ ys, ys.Perm xs → stableSort order ys = stableSort order xs) ↔
      xs.Pairwise (fun a b => order a b ≠ .eq) := by
  constructor
  · intro h
    rw [List.pairwise_iff_forall_sublist]
    intro a b hab htie
    -- the two stand at the front, once this way round and once the other
    obtain ⟨rest, hrest⟩ := hab.exists_perm_append
    have hswapped : (b :: a :: rest).Perm xs := (List.Perm.swap a b rest).trans hrest.symm
    have hfront : [a, b].Sublist (stableSort order xs) := by
      rw [← h (a :: b :: rest) hrest.symm]
      exact pair_sublist_stableSort (List.sublist_append_left [a, b] rest)
        (by rw [order_eq_symm hswap htie]; simp)
    have hback : [b, a].Sublist (stableSort order xs) := by
      rw [← h _ hswapped]
      exact pair_sublist_stableSort (List.sublist_append_left [b, a] rest) (by rw [htie]; simp)
    exact not_sublist_swap ((stableSort_perm order xs).nodup_iff.mpr hnodup) hfront hback
  · intro h ys hperm
    have heq : ∀ a ∈ xs, ∀ b ∈ xs, order a b = .eq → a = b := by
      intro a ha b hb htie
      have : Std.Symm (fun a b : β => order a b ≠ .eq) :=
        ⟨fun a b hab hba => hab (order_eq_symm hswap hba)⟩
      by_contra hne
      exact h.forall ha hb hne htie
    have hmem : ∀ {zs : List β}, zs.Perm xs → ∀ a ∈ stableSort order zs, a ∈ xs :=
      fun hzs a ha => hzs.subset ((stableSort_perm order _).subset ha)
    have hantisymm : ∀ a b, a ∈ stableSort order ys → b ∈ stableSort order xs →
        order a b ≠ .gt → order b a ≠ .gt → a = b := fun a b ha hb hab hba =>
      heq a (hmem hperm a ha) b (hmem (.refl xs) b hb) (order_eq_of_ne_gt hswap hab hba)
    exact List.Perm.eq_of_pairwise hantisymm
      (stableSort_inOrder hswap (htrans.subset hperm.subset)) (stableSort_inOrder hswap htrans)
      (((stableSort_perm order ys).trans hperm).trans (stableSort_perm order xs).symm)

end PolyAlgebra
