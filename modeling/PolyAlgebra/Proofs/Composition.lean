/-
Composition of expressions is composition of functions.

Putting an expression in place of a variable takes every term apart: the power of the variable
becomes a product of copies, a reciprocal of one or a power, and what is left of the term stands
before it.  The value of a monomial splits in the same way (`monomialValue_rebind`), so a piece has
the value of the term it comes from, with the variable bound to the value of the replacement.
What is left is found by setting the variable to one.  That is why one raised to its exponents
has to be one, which is the only law about fractional powers that is asked for here.  It cannot be
left out (`compose_value_fractional`).

A term that does not mention the variable is not taken apart, and it does not ask for a value of
the variable either: the replacement may be put in place of a variable that is not bound.

What the composed tree is built of does not depend on the numbers: terms of the replacement, terms
without the variable, what is left of the other terms, and constants (`compose_forall`).
-/
import Mathlib
import PolyAlgebra.Proofs.Substitution

namespace PolyAlgebra

/-! ### Binding one variable anew -/

namespace Bindings

variable {α : Type} (b : Bindings α) (x : String) (w : α)

/-- The bindings with one variable bound to a value, whether it was bound before or not. -/
def rebind : Bindings α := (only x w).followedBy b

theorem rebind_self : b.rebind x w x = some w :=
  followedBy_of_some b (if_pos (beq_self_eq_true x))

theorem rebind_of_ne {name : String} (h : name ≠ x) : b.rebind x w name = b name :=
  followedBy_of_none b (if_neg (by simpa using h))

end Bindings

/-! ### What composition builds -/

namespace Expr

section Additive

variable {α A : Type} [Number α] [AddCommMonoid A] {M : Expr α → A → Prop}
  (add : ∀ e c e' c', M e c → M e' c' → M (.binary .add e e') (c + c'))

include add

/-- What adds up with two expressions adds up with any number of them. -/
theorem foldl_add_additive {β : Type} {piece : β → Expr α} {worth : β → A} {xs : List β}
    (h : ∀ y ∈ xs, M (piece y) (worth y)) {e : Expr α} {c : A} (he : M e c) :
    M ((xs.map piece).foldl (.binary .add) e) (c + (xs.map worth).sum) := by
  induction xs generalizing e c with
  | nil =>
    rw [List.map_nil, List.foldl_nil, List.map_nil, List.sum_nil, add_zero]
    exact he
  | cons y rest ih =>
    obtain ⟨hy, hrest⟩ := List.forall_mem_cons.mp h
    rw [List.map_cons, List.foldl_cons, List.map_cons, List.sum_cons, ← add_assoc]
    exact ih hrest (add e c (piece y) (worth y) he hy)

/-- **A composed sum is the sum of its pieces**, for everything that adds up: what the terms
without the variable and the pieces are worth, the composed sum is worth together.  All proofs
about composed sums go through here, so none of them looks at how the tree is put together. -/
theorem composeSum_additive {x : String} {g : Expr α} {terms : TermSum α} (worth : Term α → A)
    (untouched : M (ofTerms (terms.filter fun t => !touches x t))
      ((terms.filter fun t => !touches x t).map worth).sum)
    (touched : ∀ t ∈ terms, touches x t = true → M (composeTerm x g t) (worth t)) :
    M (composeSum x g terms) (terms.map worth).sum := by
  have htouched : ∀ t ∈ terms.filter (touches x), M (composeTerm x g t) (worth t) := fun t ht =>
    touched t (List.mem_filter.mp ht).1 (List.mem_filter.mp ht).2
  have hsplit : (terms.map worth).sum = ((terms.filter fun t => !touches x t).map worth).sum
      + ((terms.filter (touches x)).map worth).sum := by
    rw [add_comm, ← List.sum_append, ← List.map_append]
    exact ((List.filter_append_perm (touches x) terms).symm.map worth).sum_eq
  rw [composeSum, hsplit]
  cases hpieces : terms.filter (touches x) with
  | nil =>
    rw [List.map_nil, List.map_nil, List.sum_nil, add_zero]
    exact untouched
  | cons t rest =>
    rw [hpieces] at htouched
    obtain ⟨ht, hrest⟩ := List.forall_mem_cons.mp htouched
    have hcomposed := foldl_add_additive add hrest ht
    rw [List.map_cons, List.map_cons, List.sum_cons]
    dsimp only
    split
    · rename_i hempty
      rw [List.isEmpty_iff.mp hempty, List.map_nil, List.sum_nil, zero_add]
      exact hcomposed
    · exact add _ _ _ _ untouched hcomposed

end Additive

section Forall

variable {α : Type} [Number α] {P : Term α → Prop} {g : Expr α}

theorem copies_forall (hg : ∀ t ∈ g.leafTerms, P t) (count : Nat) :
    ∀ t ∈ (copies g count).leafTerms, P t := by
  induction count using copies.induct with
  | case1 => exact hg
  | case2 => exact hg
  | case3 count ih => exact forall_leafTerms_binary.mpr ⟨ih, hg⟩

variable (zero : P Term.zero) (withCoefficient : ∀ t c, P t → P (t.withCoefficient c))
  (constant : ∀ y, P (Term.ofNumber y))

include zero withCoefficient

theorem ofTerm_forall {t : Term α} (ht : P t) : ∀ u ∈ (ofTerm t).leafTerms, P u :=
  TermSum.reduce_forall zero withCoefficient (List.forall_mem_singleton.mpr ht)

include constant

theorem raise_forall (hg : ∀ t ∈ g.leafTerms, P t) (exponent : α) :
    ∀ t ∈ (raise g exponent).leafTerms, P t := by
  have hnumber : ∀ y : α, ∀ t ∈ (ofNumber y).leafTerms, P t := fun y =>
    ofTerm_forall zero withCoefficient (constant y)
  rw [raise]
  split
  · exact forall_leafTerms_binary.mpr ⟨hg, hnumber exponent⟩
  · split
    · exact forall_leafTerms_binary.mpr ⟨hnumber 1, copies_forall hg _⟩
    · exact copies_forall hg _

/-- **The terms of a composed sum** are those of the replacement, terms without the variable, what
is left of the other terms, and constants. -/
theorem composeSum_forall {x : String} {terms : TermSum α} (hg : ∀ t ∈ g.leafTerms, P t)
    (untouched : ∀ t ∈ terms, touches x t = false → P t)
    (touched : ∀ t ∈ terms, P (withoutPower t x)) :
    ∀ t ∈ (composeSum x g terms).leafTerms, P t := by
  -- there is nothing to add up, so any worth will do
  refine composeSum_additive (M := fun e (_ : ℕ) => ∀ t ∈ e.leafTerms, P t)
    (fun _ _ _ _ he he' => forall_leafTerms_binary.mpr ⟨he, he'⟩) (fun _ => 0) ?_ ?_
  · refine TermSum.reduce_forall zero withCoefficient fun t ht => ?_
    obtain ⟨ht, hx⟩ := List.mem_filter.mp ht
    exact untouched t ht (by simpa using hx)
  · intro t ht _
    exact forall_leafTerms_binary.mpr ⟨ofTerm_forall zero withCoefficient (touched t ht),
      raise_forall zero withCoefficient constant hg _⟩

/-- The same of any composed expression. -/
theorem compose_forall {x : String} {f : Expr α} (hg : ∀ t ∈ g.leafTerms, P t)
    (untouched : ∀ t ∈ f.leafTerms, touches x t = false → P t)
    (touched : ∀ t ∈ f.leafTerms, P (withoutPower t x)) :
    ∀ t ∈ (f.compose x g).leafTerms, P t := by
  induction f using Expr.induct with
  | sum terms => exact composeSum_forall zero withCoefficient constant hg untouched touched
  | binary op left right ihl ihr =>
    obtain ⟨hul, hur⟩ := forall_leafTerms_binary.mp untouched
    obtain ⟨htl, htr⟩ := forall_leafTerms_binary.mp touched
    exact forall_leafTerms_binary.mpr ⟨ihl hul htl, ihr hur htr⟩
  | call function arguments ih =>
    rw [compose, composeAll_eq_map, forall_leafTerms_call, List.forall_mem_map]
    exact fun e he => ih e he (forall_leafTerms_call.mp untouched e he)
      (forall_leafTerms_call.mp touched e he)

end Forall

end Expr

variable {K : Type} [Field K] [LinearOrder K] [FloorRing K] [Unsettled K]
  {x : String} {w : K} {b : Bindings K}

/-- What a term has to fulfil for a variable in it to be replaced by something worth `w`. -/
structure Term.Replaceable (t : Term K) (x : String) (w : K) (b : Bindings K) : Prop where
  bound : t.Bound (b.rebind x w)
  one_pow : Number.pow 1 (t.exponent x) = 1
  nonzero : t.exponent x < 0 → w ≠ 0

namespace Term

variable {t : Term K}

/-- Which value a variable is bound to does not matter for being bound. -/
theorem Bound.rebind (h : t.Bound (b.rebind x w)) (v : K) : t.Bound (b.rebind x v) := by
  intro name exponent hget
  by_cases hname : name = x
  · subst hname
    exact ⟨v, Bindings.rebind_self b name v⟩
  · obtain ⟨y, hy⟩ := h name exponent hget
    rw [Bindings.rebind_of_ne b x w hname] at hy
    exact ⟨y, (Bindings.rebind_of_ne b x v hname).trans hy⟩

/-- A term that does not mention the variable does not need it bound. -/
theorem Replaceable.bound_of_untouched (h : t.Replaceable x w b) (hx : t.exponent x = 0) :
    t.Bound b := by
  intro name exponent hget
  have hname : name ≠ x := by
    rintro rfl
    have hexponent : t.exponent name = exponent := by rw [Term.exponent, hget, Option.getD_some]
    have hne := t.normalised.exponents name exponent hget
    rw [← hexponent, hx] at hne
    simp at hne
  obtain ⟨y, hy⟩ := h.bound name exponent hget
  exact ⟨y, (Bindings.rebind_of_ne b x w hname).symm.trans hy⟩

end Term

variable [IsStrictOrderedRing K]

/-- **The power of one variable can be split off from a monomial.** -/
theorem monomialValue_rebind (x : String) (w : K) (b : Bindings K) (m : String →₀ K) :
    monomialValue (b.rebind x w) m = Number.pow w (m x) * monomialValue b (m.erase x) := by
  have hself : (b.rebind x w).number x = w := by
    rw [Bindings.number, Bindings.rebind_self, Option.getD_some]
  have hothers : monomialValue (b.rebind x w) (m.erase x) = monomialValue b (m.erase x) := by
    refine Finsupp.prod_congr fun name hname => ?_
    have hne : name ≠ x := by
      rintro rfl
      simp at hname
    rw [Bindings.number, Bindings.rebind_of_ne b x w hne, Bindings.number]
  rw [← hothers, monomialValue, ← Finsupp.mul_prod_erase' m x _ fun _ => Exact.pow_zero_exponent _,
    hself, monomialValue]

/-- Without the variable, the value it is bound to makes no difference. -/
theorem Term.valueAt_of_untouched {t : Term K} (hx : t.exponent x = 0) (w : K) :
    Laurent.valueAt (b.rebind x w) t.polynomial = Laurent.valueAt b t.polynomial := by
  have hexponent : t.monomial x = 0 := hx
  rw [polynomial, Laurent.valueAt_single, Laurent.valueAt_single, monomialValue_rebind, hexponent,
    Exact.pow_zero_exponent, one_mul,
    Finsupp.erase_of_notMem_support (Finsupp.notMem_support_iff.mpr hexponent)]

/-- What is left of a term, times the power of the variable, makes up the term. -/
theorem Term.valueAt_withoutPower {t : Term K} (hone : Number.pow 1 (t.exponent x) = 1) (w : K) :
    Laurent.valueAt b (Expr.withoutPower t x).polynomial * Number.pow w (t.exponent x)
      = Laurent.valueAt (b.rebind x w) t.polynomial := by
  have hleft : Laurent.valueAt b (Expr.withoutPower t x).polynomial
      = Laurent.valueAt (b.rebind x 1) t.polynomial := valueAt_partiallyEvaluate t
  have hexponent : t.monomial x = t.exponent x := rfl
  rw [hleft, polynomial, Laurent.valueAt_single, Laurent.valueAt_single, monomialValue_rebind,
    monomialValue_rebind, hexponent, hone]
  ring

namespace Expr

/-! ### Powers of the replacement -/

omit [IsStrictOrderedRing K] in
theorem copies_value {g : Expr K} (hg : g.value b = .ok w) (count : Nat) :
    (copies g (count + 1)).value b = .ok (w ^ (count + 1)) := by
  induction count with
  | zero => rw [copies, hg, zero_add, pow_one]
  | succ count ih =>
    rw [copies, value, ih, hg, pow_succ w (count + 1)]
    rfl

/-- **A replacement raised to a number is worth the power of its value.**  The exponent zero is
left out, for which a single copy would be taken. -/
theorem raise_value {g : Expr K} (hg : g.value b = .ok w) {exponent : K} (h0 : exponent ≠ 0)
    (hneg : exponent < 0 → w ≠ 0) :
    (raise g exponent).value b = .ok (Number.pow w exponent) := by
  rw [raise]
  split
  · rw [value, hg, ofNumber_value]
    rfl
  · rename_i n hwhole
    obtain rfl := Exact.eq_intCast_of_whole? hwhole
    obtain ⟨count, hcount⟩ : ∃ count, n.natAbs = count + 1 :=
      Nat.exists_eq_succ_of_ne_zero (by simpa using h0)
    have hcopies : (copies g n.natAbs).value b = .ok (w ^ n.natAbs) := by
      rw [hcount, copies_value hg]
    rw [Exact.pow_intCast]
    split
    · rename_i hlt
      have hw : w ≠ 0 := hneg (by exact_mod_cast hlt)
      have hne : (w ^ n.natAbs == 0) = false := by simp [hw]
      have hpow : 1 / w ^ n.natAbs = w ^ n := by
        rw [one_div, ← zpow_natCast, ← zpow_neg, Int.ofNat_natAbs_of_nonpos hlt.le, neg_neg]
      rw [value, one, ofNumber_value, hcopies, ← hpow]
      show (if w ^ n.natAbs == 0 then _ else _) = _
      rw [hne]
      rfl
    · rename_i hge
      rw [hcopies, ← zpow_natCast, Int.natAbs_of_nonneg (not_lt.mp hge)]

/-! ### Sums -/

/-- **A piece has the value of the term it comes from.** -/
theorem composeTerm_value {g : Expr K} (hg : g.value b = .ok w) {t : Term K}
    (h : t.Replaceable x w b) (hx : t.exponent x ≠ 0) :
    (composeTerm x g t).value b = .ok (Laurent.valueAt (b.rebind x w) t.polynomial) := by
  have hleft : (withoutPower t x).Bound b := (h.bound.rebind 1).partiallyEvaluate
  rw [composeTerm, value, ofTerm_value hleft, raise_value hg hx h.nonzero,
    ← Term.valueAt_withoutPower h.one_pow]
  rfl

/-- Terms without the variable have the same value whatever it is bound to, if it is. -/
theorem ofTerms_value_of_untouched {terms : TermSum K} (h : ∀ t ∈ terms, t.Replaceable x w b)
    (hx : ∀ t ∈ terms, t.exponent x = 0) :
    (ofTerms terms).value b
      = .ok (Laurent.valueAt (b.rebind x w) (TermSum.polynomial terms)) := by
  have hbound : ∀ t ∈ terms, t.Bound b := fun t ht => (h t ht).bound_of_untouched (hx t ht)
  rw [ofTerms_value hbound, TermSum.valueAt_eq_sum, TermSum.valueAt_eq_sum,
    List.map_congr_left fun t ht => (Term.valueAt_of_untouched (hx t ht) w).symm]

/-- **A sum with an expression in place of a variable** has the value of the sum with the
variable bound to the value of the expression. -/
theorem composeSum_value {g : Expr K} (hg : g.value b = .ok w) {terms : TermSum K}
    (h : ∀ t ∈ terms, t.Replaceable x w b) :
    (composeSum x g terms).value b
      = .ok (Laurent.valueAt (b.rebind x w) (TermSum.polynomial terms)) := by
  rw [TermSum.valueAt_eq_sum]
  refine composeSum_additive (M := fun e c => e.value b = .ok c) ?_
    (fun t => Laurent.valueAt (b.rebind x w) t.polynomial) ?_ ?_
  · intro e c e' c' he he'
    rw [value, he, he']
    rfl
  · rw [← TermSum.valueAt_eq_sum]
    exact ofTerms_value_of_untouched (fun t ht => h t (List.mem_filter.mp ht).1) fun t ht => by
      simpa [touches] using (List.mem_filter.mp ht).2
  · intro t ht htouches
    exact composeTerm_value hg (h t ht) (by simpa [touches] using htouches)

/-! ### Trees -/

theorem compose_value_of_replaceable {f g : Expr K} (hg : g.value b = .ok w)
    (h : ∀ t ∈ f.leafTerms, t.Replaceable x w b) :
    (f.compose x g).value b = f.value (b.rebind x w) := by
  induction f using Expr.induct with
  | sum terms =>
    have hterms : ∀ t ∈ terms, t.Replaceable x w b := h
    rw [compose, composeSum_value hg hterms, value,
      TermSum.value_eq fun t ht => (hterms t ht).bound]
  | binary op left right ihl ihr =>
    obtain ⟨hl, hr⟩ := forall_leafTerms_binary.mp h
    rw [compose, value, value, ihl hl, ihr hr]
  | call function arguments ih =>
    have hall := forall_leafTerms_call.mp h
    rw [compose, composeAll_eq_map, value, value,
      values_congr fun e he => ih e he (hall e he)]

/-- **Composition of expressions is composition of functions.**  If the replacement has a value,
the composed expression has the value, or the division by zero, of the expression with the
variable bound to that value.  Of powers with exponents that are not whole, only that one raised
to them is one is asked for (`hone`).  Where a zero replaces the variable, its exponents must not
be negative, because the composed expression divides by zero there. -/
theorem compose_value {f g : Expr K} {x : String} {b : Bindings K} {w : K}
    (hone : ∀ t ∈ f.leafTerms, Number.whole? (t.exponent x) = none →
      Number.pow 1 (t.exponent x) = 1)
    (hg : g.value b = .ok w)
    (hbound : ∀ name ∈ f.variableNames, ∃ v, b.rebind x w name = some v)
    (hzero : ∀ t ∈ f.leafTerms, t.exponent x < 0 → w ≠ 0) :
    (f.compose x g).value b = f.value (b.rebind x w) := by
  have hpow : ∀ t ∈ f.leafTerms, Number.pow 1 (t.exponent x) = 1 := by
    intro t ht
    cases hwhole : Number.whole? (t.exponent x) with
    | none => exact hone t ht hwhole
    | some n => rw [Exact.eq_intCast_of_whole? hwhole, Exact.pow_intCast, one_zpow]
  exact compose_value_of_replaceable hg fun t ht =>
    ⟨bound_of_variableNames hbound t ht, hpow t ht, hzero t ht⟩

/-- The replacement mentions the variable itself, whose exponents are fractional, negative and
positive, and the divisor becomes zero. -/
theorem compose_value_square :
    let dividend : Expr ℝ := .sum [Term.ofPowers 2 [("x", 1 / 2), ("y", 1)],
      Term.ofPowers 3 [("x", -3)], Term.ofPowers 5 [("y", -1)]]
    let divisor : Expr ℝ := .sum [Term.ofPowers 1 [("x", 3)], Term.ofPowers (-64) []]
    let f : Expr ℝ := .binary .divide dividend divisor
    let g : Expr ℝ := ofTerm (Term.ofPowers 1 [("x", 2)])
    let b : Bindings ℝ := (Bindings.only "x" 2).followedBy (Bindings.only "y" 3)
    ((∀ t ∈ f.leafTerms, Number.whole? (t.exponent "x") = none →
        Number.pow 1 (t.exponent "x") = 1) ∧ g.value b = .ok 4 ∧
        (∀ name ∈ f.variableNames, ∃ v, b.rebind "x" 4 name = some v) ∧
        (∀ t ∈ f.leafTerms, t.exponent "x" < 0 → (4 : ℝ) ≠ 0) ∧ IsStrictOrderedRing ℝ) ∧
      (f.compose "x" g).value b = f.value (b.rebind "x" 4) := by
  intro dividend divisor f g b
  have hone : ∀ t ∈ f.leafTerms, Number.whole? (t.exponent "x") = none →
      Number.pow 1 (t.exponent "x") = 1 := by
    intro t _ hwhole
    show Exact.pow 1 (t.exponent "x") = 1
    rw [Exact.pow, show Exact.whole? (t.exponent "x") = none from hwhole]
    exact Real.one_rpow _
  have hg : g.value b = .ok 4 := by
    have hbound : (Term.ofPowers 1 [("x", 2)]).Bound b := by
      intro name exponent hget
      obtain ⟨rfl, -⟩ : name = "x" ∧ exponent = 2 := by simpa using Term.mem_of_get?_ofPowers hget
      exact ⟨2, rfl⟩
    have hx : b.number "x" = 2 := rfl
    have hsquare : Number.pow (2 : ℝ) 2 = 4 :=
      calc Number.pow (2 : ℝ) 2 = 2 ^ (2 : Int) := by exact_mod_cast Exact.pow_intCast (2 : ℝ) 2
        _ = 4 := by norm_num
    rw [ofTerm_value hbound, Term.polynomial_ofPowers _ (by simp), Laurent.valueAt_single]
    simp [monomialValue, hx, hsquare]
  have hbound : ∀ name ∈ f.variableNames, ∃ v, b.rebind "x" 4 name = some v := by
    intro name hname
    obtain ⟨t, ht, exponent, hget⟩ := (mem_variableNames_iff f name).mp hname
    have hxy : name = "x" ∨ name = "y" := by
      simp only [f, dividend, divisor, leafTerms, List.mem_append, List.mem_cons,
        List.not_mem_nil, or_false] at ht
      rcases ht with (rfl | rfl | rfl) | rfl | rfl
      all_goals
        have hmem := Term.mem_of_get?_ofPowers hget
        grind
    rcases hxy with rfl | rfl
    · exact ⟨4, rfl⟩
    · exact ⟨3, rfl⟩
  exact ⟨⟨hone, hg, hbound, by simp, inferInstance⟩, compose_value hone hg hbound (by simp)⟩

/-- Rational numbers for which every power with a fractional exponent is two. -/
@[reducible] def Exact.twoPowers : Unsettled ℚ :=
  { instUnsettledRat with fractionalPow := fun _ _ => 2 }

/-- **One to a fractional power has to be one.**  If it is two, as all such powers are here, the
square root of a variable is two wherever it is taken.  Composing leaves the one power of the
variable that is set to one standing as a factor, and the composed expression is worth four. -/
theorem compose_value_fractional :
    letI : Unsettled ℚ := Exact.twoPowers
    let f : Expr ℚ := .sum [Term.ofPowers 1 [("x", 1 / 2)]]
    let g : Expr ℚ := ofNumber 4
    let b : Bindings ℚ := fun _ => none
    g.value b = .ok 4 ∧
      (∀ name ∈ f.variableNames, ∃ v, b.rebind "x" 4 name = some v) ∧
      (∀ t ∈ f.leafTerms, ∀ exponent ∈ t.powers.values, ¬ exponent < 0) ∧
      f.value (b.rebind "x" 4) = .ok 2 ∧ (f.compose "x" g).value b = .ok 4 := by
  let : Unsettled ℚ := Exact.twoPowers
  intro f g b
  have hbound : ∀ name ∈ f.variableNames, ∃ v, b.rebind "x" 4 name = some v := by
    have hnames : f.variableNames = ["x"] := by decide +kernel
    rw [hnames]
    simp [Bindings.rebind_self]
  exact ⟨by decide +kernel, hbound, by decide +kernel, by decide +kernel, by decide +kernel⟩

end Expr

end PolyAlgebra
