/-
What the two orders of terms are good for.

Both orders are total preorders of the terms without undefined numbers, infinite ones included.
So sorting by them puts such terms in order, which is what the canonical form of a sum and its text
rely on.  In a canonical sum the first term then has the degree of the sum.

The canonical form sorts what merging leaves, and infinite coefficients of opposite sign merge into
an undefined one.  Finite ones never do (`reduce_inOrder_of_isFinite`), but where it happens,
sorting goes by neighbours only and the canonical form can be out of order (`reduce_not_inOrder`).
Its first term still has the degree of the sum: degrees come first in both orders and merging
leaves the exponents alone, so the degrees fall whatever the coefficients are (`degree_reduce`).
-/
import Mathlib
import PolyAlgebra.Proofs.CanonicalResults
import PolyAlgebra.Proofs.Double.Sums

namespace PolyAlgebra

variable {α : Type} [Number α] [OrderedNumber α]

namespace TermSum

/-- The text of a sum shows its terms in canonical order, zeros left out. -/
theorem text_inOrder {terms : TermSum α} (h : ∀ t ∈ terms, t.Defined) :
    ∃ sorted : TermSum α, sorted.Perm (terms.filter fun t => !t.isZero) ∧
      InOrder Term.canonicalOrder sorted ∧ terms.text = sortedText sorted :=
  ⟨_, stableSort_perm _ _, stableSort_inOrder Term.canonicalOrder_swap
    (Term.canonicalOrder_transitiveOn fun t ht => h t (List.mem_of_mem_filter ht)), rfl⟩

/-- The canonical form of terms has only exponents of these. -/
theorem isUndefined_degree_reduce {terms : TermSum α} (h : ∀ t ∈ terms, t.Defined) :
    ∀ t ∈ reduce terms, Number.isUndefined t.degree = false := fun t ht =>
  Term.isUndefined_degree (forall_powers_reduce (fun u hu => (h u hu).exponents) t ht)

/-- **The first term of a canonical form has the degree of the sum.** -/
theorem degree_reduce {terms : TermSum α} (h : ∀ t ∈ terms, t.Defined) :
    ∃ t rest, reduce terms = t :: rest ∧ degree (reduce terms) = t.degree := by
  obtain ⟨t, rest, heq⟩ := List.exists_cons_of_ne_nil (reduce_ne_nil terms)
  refine ⟨t, rest, heq, ?_⟩
  have hdefined := isUndefined_degree_reduce h
  have hchain := reduce_isChain terms
  rw [heq] at hdefined hchain ⊢
  exact degree_of_isChain hdefined hchain

theorem CanonicalForm.degree_eq {t : Term α} {rest : TermSum α} (h : CanonicalForm (t :: rest))
    (hdefined : ∀ u ∈ t :: rest, u.Defined) : degree (t :: rest) = t.degree :=
  degree_of_isChain (fun u hu => (hdefined u hu).degree) (h.inOrder hdefined).isChain

end TermSum

end PolyAlgebra
