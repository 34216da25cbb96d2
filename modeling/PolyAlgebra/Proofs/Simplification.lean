/-
Simplifying does not change values.

In exact arithmetic and without divisions, an expression that collapses has the value of the
sum it collapses into.  What carries the induction is that all terms of that sum have values
of their own, since a product of sums is only then the sum of products.  Where an expression
does not collapse, its operands are simplified one by one, and values follow by congruence.

Divisions are left out because a quotient may collapse although its divisor has the value
zero, and then the two sides differ.
-/
import Mathlib
import PolyAlgebra.Proofs.Collapsing
import PolyAlgebra.Proofs.Leaves
import PolyAlgebra.Proofs.Values

namespace PolyAlgebra.Expr

variable {α : Type} [Number α]

mutual

/-- There is no division in the expression. -/
def DivideFree : Expr α → Prop
  | .sum _ => True
  | .binary op left right => op ≠ .divide ∧ DivideFree left ∧ DivideFree right
  | .call _ arguments => AllDivideFree arguments

/-- There is no division in any of the expressions. -/
def AllDivideFree : List (Expr α) → Prop
  | [] => True
  | e :: rest => DivideFree e ∧ AllDivideFree rest

end

theorem allDivideFree_iff (es : List (Expr α)) :
    AllDivideFree es ↔ ∀ e ∈ es, DivideFree e := by
  induction es with
  | nil => simp [AllDivideFree]
  | cons e rest ih => simp [AllDivideFree, ih]

variable {K : Type} [Field K] [LinearOrder K] [FloorRing K] [Unsettled K]

/-- Every variable is bound, all exponents are whole, and no variable with a negative exponent
is bound to zero. -/
structure Evaluable (e : Expr K) (b : Bindings K) : Prop where
  bound : ∀ name ∈ e.variableNames, ∃ x, b name = some x
  whole : ∀ t ∈ e.leafTerms, ∀ name exponent, t.powers.get? name = some exponent →
    ∃ n : Int, exponent = n
  nonzero : ∀ t ∈ e.leafTerms, ∀ name exponent, t.powers.get? name = some exponent →
    exponent < 0 → b name ≠ some 0

variable [IsStrictOrderedRing K] {b : Bindings K}

/-- Then the terms at the leaves all have values. -/
theorem Evaluable.admits {e : Expr K} (h : e.Evaluable b) : ∀ t ∈ e.leafTerms, t.Admits b := by
  intro t ht
  have hbound : t.Bound b := bound_of_variableNames h.bound t ht
  refine ⟨hbound, fun name => ?_⟩
  rw [NameMap.toFinsupp_apply]
  cases hget : t.powers.get? name with
  | none => exact ⟨0, by simp⟩
  | some exponent =>
    obtain ⟨n, rfl⟩ := h.whole t ht name exponent hget
    refine ⟨n, rfl, fun hneg => ?_⟩
    obtain ⟨x, hx⟩ := hbound name n hget
    have hne := h.nonzero t ht name n hget (by exact_mod_cast hneg)
    rw [Bindings.number, hx]
    rintro rfl
    exact hne hx

/-! ### Collapsing -/

/-- What the terms of a collapsed expression are worth. -/
def CollapsesTo (b : Bindings K) (e : Expr K) : Prop :=
  ∀ terms, e.collapse = .ok terms →
    (∀ t ∈ terms, t.Admits b) ∧ e.value b = .ok (Laurent.valueAt b (TermSum.polynomial terms))

omit [IsStrictOrderedRing K] in
theorem reduce_admits {terms : TermSum K} (h : ∀ t ∈ terms, t.Admits b) :
    ∀ t ∈ TermSum.reduce terms, t.Admits b :=
  TermSum.reduce_forall NameMap.Admits.empty (fun _ c ht => Term.Admits.normalise c ht) h

/-- Combining sums with values gives a sum with values, and the operator its value. -/
theorem combine_value {op : Operator} (hop : op ≠ .divide) {left right terms : TermSum K}
    (hl : ∀ t ∈ left, t.Admits b) (hr : ∀ t ∈ right, t.Admits b)
    (h : TermSum.combine op left right = .ok terms) :
    (∀ t ∈ terms, t.Admits b) ∧
      op.apply (Laurent.valueAt b (TermSum.polynomial left))
          (Laurent.valueAt b (TermSum.polynomial right))
        = .ok (Laurent.valueAt b (TermSum.polynomial terms)) := by
  cases op with
  | add =>
    obtain rfl := Except.ok.inj h
    refine ⟨reduce_admits fun t ht => (List.mem_append.mp ht).elim (hl t) (hr t), ?_⟩
    rw [TermSum.polynomial_reduce, TermSum.polynomial_append, map_add]
    rfl
  | subtract =>
    obtain rfl := Except.ok.inj h
    refine ⟨reduce_admits fun t ht => ?_, ?_⟩
    · rcases List.mem_append.mp ht with ht | ht
      · exact hl t ht
      · obtain ⟨u, hu, rfl⟩ := List.mem_map.mp ht
        exact (hr u hu).negate
    · rw [TermSum.polynomial_reduce, TermSum.polynomial_append, TermSum.polynomial_negate,
        map_add, map_neg, ← sub_eq_add_neg]
      rfl
  | multiply =>
    obtain rfl := Except.ok.inj h
    refine ⟨reduce_admits fun t ht => ?_, ?_⟩
    · obtain ⟨l, hl', ht⟩ := List.mem_flatMap.mp ht
      obtain ⟨r, hr', rfl⟩ := List.mem_map.mp ht
      exact (hl l hl').multiply (hr r hr')
    · rw [TermSum.polynomial_reduce, TermSum.valueAt_products hl hr]
      rfl
  | divide => exact absurd rfl hop
  | power => cases h

omit [IsStrictOrderedRing K] in
/-- Arguments that collapse into constants have these values. -/
theorem values_of_constants {arguments : List (Expr K)}
    (h : ∀ e ∈ arguments, CollapsesTo b e) {numbers : List K}
    (hn : constants arguments = .ok numbers) : values arguments b = .ok numbers := by
  induction arguments generalizing numbers with
  | nil =>
    obtain rfl := Except.ok.inj hn
    rfl
  | cons e rest ih =>
    obtain ⟨he, hrest⟩ := List.forall_mem_cons.mp h
    obtain ⟨terms, others, hterms, hconstant, hothers, rfl⟩ := constants_cons_eq_ok_iff.mp hn
    rw [values, (he terms hterms).2, ih hrest hothers, TermSum.valueAt_of_isConstant hconstant]
    rfl

/-- **An expression that collapses has the value of the sum it collapses into.** -/
theorem collapsesTo {e : Expr K} (hd : e.DivideFree) (hb : ∀ t ∈ e.leafTerms, t.Admits b) :
    CollapsesTo b e := by
  induction e using Expr.induct with
  | sum terms =>
    rintro _ ⟨⟩
    refine ⟨reduce_admits hb, ?_⟩
    rw [TermSum.polynomial_reduce]
    exact TermSum.value_eq fun t ht => (hb t ht).bound
  | binary op left right ihl ihr =>
    obtain ⟨hop, hdl, hdr⟩ := hd
    intro terms h
    obtain ⟨-, l, r, hl, hr, hcombine⟩ := collapse_binary_eq_ok_iff.mp h
    obtain ⟨hbl, hbr⟩ := forall_leafTerms_binary.mp hb
    obtain ⟨hla, hlv⟩ := ihl hdl hbl l hl
    obtain ⟨hra, hrv⟩ := ihr hdr hbr r hr
    obtain ⟨hadmits, happly⟩ := combine_value hop hla hra hcombine
    refine ⟨hadmits, ?_⟩
    rw [value, hlv, hrv]
    exact happly
  | call f arguments ih =>
    have hdall := (allDivideFree_iff arguments).mp hd
    have hball := forall_leafTerms_call.mp hb
    have hcollapses : ∀ e ∈ arguments, CollapsesTo b e := fun e he =>
      ih e he (hdall e he) (hball e he)
    intro terms h
    obtain ⟨numbers, x, hnumbers, hx, rfl⟩ := collapse_call_eq_ok_iff.mp h
    have hterm : (Term.ofNumber x).Admits b := Term.Admits.normalise x NameMap.Admits.empty
    refine ⟨reduce_admits (by simpa using hterm), ?_⟩
    rw [value, values_of_constants hcollapses hnumbers]
    show applyFunction f numbers = _
    rw [applyFunction, hx, TermSum.valueAt_ofNumber]

/-! ### Simplifying -/

theorem value_of_collapse {e : Expr K} (hd : e.DivideFree)
    (hb : ∀ t ∈ e.leafTerms, t.Admits b) {terms : TermSum K} (h : e.collapse = .ok terms) :
    (Expr.sum terms).value b = e.value b := by
  obtain ⟨hadmits, hvalue⟩ := collapsesTo hd hb terms h
  rw [hvalue, value, TermSum.value_eq fun t ht => (hadmits t ht).bound]

theorem simplify_value_of_admits {e : Expr K} (hd : e.DivideFree)
    (hb : ∀ t ∈ e.leafTerms, t.Admits b) : e.simplify.value b = e.value b := by
  induction e using Expr.induct with
  | sum terms => exact value_of_collapse hd hb rfl
  | binary op left right ihl ihr =>
    rw [simplify]
    split
    · rename_i terms h
      exact value_of_collapse hd hb h
    · obtain ⟨-, hdl, hdr⟩ := hd
      obtain ⟨hbl, hbr⟩ := forall_leafTerms_binary.mp hb
      rw [value, value, ihl hdl hbl, ihr hdr hbr]
  | call f arguments ih =>
    rw [simplify]
    split
    · rename_i terms h
      exact value_of_collapse hd hb h
    · have hdall := (allDivideFree_iff arguments).mp hd
      have hball := forall_leafTerms_call.mp hb
      have hvalues : values (arguments.map simplify) b = values arguments b :=
        values_congr fun e he => ih e he (hdall e he) (hball e he)
      rw [simplifyAll_eq_map, value, value, hvalues]

/-- **Simplifying preserves the value of every expression without divisions**, whether all of
it collapses or only parts, and so does collapsing it into one sum. -/
theorem simplify_value {e : Expr K} (hd : e.DivideFree) (hb : e.Evaluable b) :
    e.simplify.value b = e.value b ∧
      ∀ r, e.trySimplify = some r → r.value b = e.value b := by
  refine ⟨simplify_value_of_admits hd hb.admits, fun r hr => ?_⟩
  obtain ⟨terms, hterms, rfl⟩ := Option.map_eq_some_iff.mp hr
  refine value_of_collapse hd hb.admits ?_
  cases hc : e.collapse with
  | error obstacle =>
    rw [hc] at hterms
    cases hterms
  | ok terms' =>
    rw [hc] at hterms
    rw [Option.some.inj hterms]

/-- A power keeps the whole from collapsing, and its operands are simplified. -/
theorem simplify_value_partial :
    let reciprocal : Expr ℚ := .sum [Term.ofPowers 3 [("x", -2)]]
    let square : Expr ℚ := .binary .power (.sum [Term.ofPowers 1 [("x", 1)]])
      (.binary .add (.sum [Term.ofPowers 2 []]) (.call (.unary .sine) [.sum []]))
    let e : Expr ℚ := .binary .multiply (.binary .subtract reciprocal reciprocal) square
    let b : Bindings ℚ := fun name => if name = "x" then some 5 else none
    (e.DivideFree ∧ e.Evaluable b ∧ IsStrictOrderedRing ℚ) ∧
      e.simplify.value b = e.value b ∧ ∀ r, e.trySimplify = some r → r.value b = e.value b := by
  intro reciprocal square e b
  have hd : e.DivideFree := by
    simp [e, reciprocal, square, DivideFree, AllDivideFree]
  have hget : ∀ t ∈ e.leafTerms, ∀ name exponent, t.powers.get? name = some exponent →
      name = "x" ∧ (exponent = ((-2 : Int) : ℚ) ∨ exponent = ((1 : Int) : ℚ)) := by
    intro t ht name exponent h
    simp only [e, reciprocal, square, leafTerms, leafTermsAll, List.append_nil, List.mem_append,
      List.mem_singleton, or_self] at ht
    rcases ht with rfl | rfl | rfl
    · have hpower : name = "x" ∧ exponent = -2 := by simpa using Term.mem_of_get?_ofPowers h
      exact ⟨hpower.1, Or.inl (by simpa using hpower.2)⟩
    · have hpower : name = "x" ∧ exponent = 1 := by simpa using Term.mem_of_get?_ofPowers h
      exact ⟨hpower.1, Or.inr (by simpa using hpower.2)⟩
    · exact absurd (Term.mem_of_get?_ofPowers h) List.not_mem_nil
  have hb : e.Evaluable b := by
    refine ⟨fun name hname => ⟨5, ?_⟩, fun t ht name exponent h => ?_,
      fun t ht name exponent h _ => ?_⟩
    · obtain ⟨t, ht, exponent, h⟩ := (mem_variableNames_iff e name).mp hname
      exact if_pos (hget t ht name exponent h).1
    · rcases (hget t ht name exponent h).2 with h | h
      · exact ⟨_, h⟩
      · exact ⟨_, h⟩
    · rw [(hget t ht name exponent h).1]
      simp [b]
  exact ⟨⟨hd, hb, inferInstance⟩, simplify_value hd hb⟩

end PolyAlgebra.Expr
