/-
A stable sort by a comparison.

Elements are put one after the other into their place among those before them: each moves
left past every element it compares as less than, starting from the right end, and stops
at the first other one.  So equals keep their order.  The comparison need not be
transitive for the result to be determined, which matters when some values do not compare.
-/
namespace PolyAlgebra

variable {β : Type}

/-- Put an element into its place in a list held last element first. -/
def placeFromEnd (order : β → β → Ordering) (x : β) : List β → List β
  | [] => [x]
  | y :: rest => if order x y = .lt then y :: placeFromEnd order x rest else x :: y :: rest

/-- The list in the order of the comparison, equals in the order they came. -/
def stableSort (order : β → β → Ordering) (xs : List β) : List β :=
  (xs.foldl (fun placed x => placeFromEnd order x placed) []).reverse

theorem placeFromEnd_perm (order : β → β → Ordering) (x : β) (placed : List β) :
    (placeFromEnd order x placed).Perm (x :: placed) := by
  induction placed with
  | nil => exact List.Perm.refl _
  | cons y rest ih =>
    rw [placeFromEnd]
    split
    · exact (ih.cons y).trans (List.Perm.swap x y rest)
    · exact List.Perm.refl _

theorem foldl_placeFromEnd_perm (order : β → β → Ordering) (xs placed : List β) :
    (xs.foldl (fun placed x => placeFromEnd order x placed) placed).Perm (xs ++ placed) := by
  induction xs generalizing placed with
  | nil => exact List.Perm.refl _
  | cons x rest ih =>
    refine (ih _).trans (((placeFromEnd_perm order x placed).append_left rest).trans ?_)
    exact List.perm_middle

/-- Sorting loses nothing and adds nothing. -/
theorem stableSort_perm (order : β → β → Ordering) (xs : List β) :
    (stableSort order xs).Perm xs :=
  (List.reverse_perm _).trans (by simpa using foldl_placeFromEnd_perm order xs [])

/-- Nothing sorts to nothing, and nothing else does. -/
theorem stableSort_eq_nil_iff (order : β → β → Ordering) (xs : List β) :
    stableSort order xs = [] ↔ xs = [] := by
  constructor
  · intro h
    have := stableSort_perm order xs
    rw [h] at this
    exact List.nil_perm.mp this
  · rintro rfl
    rfl

end PolyAlgebra
