/-
Canonical form.

`reduce` merges, drops, fills in a zero and sorts.  What each of these steps preserves is said
once here.  A property of terms that survives a change of the coefficient passes from the
terms of a sum to those of its canonical form (`reduce_forall`), so nothing is invented on the
way.  And whatever the sum was, its canonical form has at most one term for each set of powers
and no zero beside other terms (`Canonical`).

None of this needs more of the numbers than that equality is symmetric.
-/
import Mathlib
import PolyAlgebra.Proofs.Comparison
import PolyAlgebra.Proofs.NameMap
import PolyAlgebra.TermSum.Basic

namespace PolyAlgebra

variable {α : Type} [Number α]

/-! ### Building terms -/

namespace Term

/-- A term of powers has no powers but those. -/
theorem mem_of_get?_ofPowers {coefficient : α} {pairs : List (String × α)} {name : String}
    {exponent : α} (h : (ofPowers coefficient pairs).powers.get? name = some exponent) :
    (name, exponent) ∈ pairs := by
  rw [ofPowers] at h
  cases hc : coefficient == 0 with
  | true =>
    rw [normalise_of_isZero hc] at h
    cases h
  | false =>
    rw [normalise_of_ne hc, NameMap.get?_filter] at h
    exact List.mem_of_mem_filter (NameMap.mem_of_get?_ofList (Option.filter_eq_some_iff.mp h).1)

/-- A term keeps its powers under every coefficient that is not zero. -/
theorem withCoefficient_of_ne (t : Term α) {coefficient : α} (h : (coefficient == 0) = false) :
    t.withCoefficient coefficient = ⟨coefficient, t.powers, t.normalised.of_ne h⟩ := by
  rw [withCoefficient, normalise_of_ne h]
  have hkeep : t.powers.filter (fun _ exponent => exponent != 0) = t.powers := by
    refine NameMap.filter_eq_self fun name exponent hget => ?_
    simpa [bne] using t.normalised.exponents name exponent hget
  exact Term.ext rfl hkeep

/-- A term is the term of its own coefficient and powers. -/
theorem normalise_self (t : Term α) : normalise t.coefficient t.powers = t := by
  cases hc : t.coefficient == 0 with
  | true => rw [normalise_of_isZero hc, eq_zero_of_isZero hc]
  | false => exact withCoefficient_of_ne t hc

theorem isZero_zero [OrderedNumber α] : (zero : Term α).isZero = true := by
  have := OrderedNumber.zero_defined (α := α)
  simpa [Number.isUndefined, isZero, zero] using this

end Term

/-! ### Powers of a term -/

namespace Term

theorem forall_powers_zero {P : String → α → Prop} :
    ∀ name exponent, (zero : Term α).powers.get? name = some exponent → P name exponent :=
  fun _ _ h => by cases h

/-- Normalising a term brings in no new power. -/
theorem forall_powers_normalise {P : String → α → Prop} (c : α) {p : NameMap α}
    (hp : ∀ name exponent, p.get? name = some exponent → P name exponent) :
    ∀ name exponent, (normalise c p).powers.get? name = some exponent → P name exponent := by
  cases hc : c == 0 with
  | true =>
    rw [normalise_of_isZero hc]
    exact forall_powers_zero
  | false =>
    rw [normalise_of_ne hc]
    intro name exponent hget
    rw [NameMap.get?_filter] at hget
    exact hp name exponent (Option.filter_eq_some_iff.mp hget).1

/-- The term mentions no variable outside of the set. -/
def Within (t : Term α) (S : Set String) : Prop :=
  ∀ name exponent, t.powers.get? name = some exponent → name ∈ S

variable {S : Set String}

theorem Within.mono {t : Term α} {T : Set String} (h : t.Within S) (hsub : S ⊆ T) : t.Within T :=
  fun name exponent hget => hsub (h name exponent hget)

theorem within_zero : (zero : Term α).Within S := forall_powers_zero

theorem within_normalise (c : α) {p : NameMap α}
    (hp : ∀ name exponent, p.get? name = some exponent → name ∈ S) :
    (normalise c p).Within S := forall_powers_normalise c hp

end Term

/-! ### Steps of the reduction -/

namespace TermSum

/-- What holds at the start and is kept by every step holds of a merged sum. -/
theorem merge_induction {I : TermSum α → Prop} {terms : TermSum α} (nil : I [])
    (step : ∀ sum, I sum → ∀ t ∈ terms, I (mergeStep sum t)) : I (merge terms) :=
  List.foldlRecOn terms mergeStep nil step

theorem mem_of_mem_reduce {terms : TermSum α} {t : Term α} (h : t ∈ reduce terms) :
    t = Term.zero ∨ t ∈ merge terms := by
  have horZero : t ∈ orZero (merge terms) := (stableSort_perm _ _).mem_iff.mp h
  cases hm : merge terms with
  | nil =>
    rw [hm, orZero, List.mem_singleton] at horZero
    exact Or.inl horZero
  | cons s rest =>
    rw [hm, orZero] at horZero
    exact Or.inr horZero

/-- The canonical form of a sum is never empty: of nothing it is zero. -/
theorem reduce_ne_nil (terms : TermSum α) : reduce terms ≠ [] := by
  rw [reduce, ne_eq, stableSort_eq_nil_iff]
  cases merge terms <;> simp [orZero]

theorem mergeTerm_forall {P : Term α → Prop} {t : Term α} {sum : TermSum α}
    (merged : ∀ s, P s → P (s.withCoefficient (s.coefficient + t.coefficient)))
    (ht : P t) (hsum : ∀ s ∈ sum, P s) : ∀ s ∈ mergeTerm t sum, P s := by
  induction sum with
  | nil => simpa [mergeTerm] using ht
  | cons s rest ih =>
    obtain ⟨hs, hrest⟩ := List.forall_mem_cons.mp hsum
    rw [mergeTerm]
    split
    · dsimp only
      split
      · exact hrest
      · exact List.forall_mem_cons.mpr ⟨merged s hs, hrest⟩
    · exact List.forall_mem_cons.mpr ⟨hs, ih hrest⟩

/-- What holds of the zero term and survives the addition of a coefficient of the sum, passes from
the terms of a sum to those of its canonical form. -/
theorem reduce_forall_of_add {P : Term α → Prop} {terms : TermSum α} (zero : P Term.zero)
    (merged : ∀ t ∈ terms, ∀ s, P s → P (s.withCoefficient (s.coefficient + t.coefficient)))
    (h : ∀ t ∈ terms, P t) : ∀ t ∈ reduce terms, P t := by
  have hmerge : ∀ s ∈ merge terms, P s := by
    refine merge_induction (I := fun sum => ∀ s ∈ sum, P s) (by simp) fun sum hsum t ht => ?_
    rw [mergeStep]
    split
    · exact hsum
    · exact mergeTerm_forall (merged t ht) (h t ht) hsum
  intro t ht
  rcases mem_of_mem_reduce ht with rfl | ht
  · exact zero
  · exact hmerge t ht

/-- So does what holds of the zero term and survives any change of the coefficient. -/
theorem reduce_forall {P : Term α → Prop} (zero : P Term.zero)
    (withCoefficient : ∀ t c, P t → P (t.withCoefficient c)) {terms : TermSum α}
    (h : ∀ t ∈ terms, P t) : ∀ t ∈ reduce terms, P t :=
  reduce_forall_of_add zero (fun _ _ s hs => withCoefficient s _ hs) h

/-- The canonical form of a sum has no power that the sum does not have. -/
theorem forall_powers_reduce {P : String → α → Prop} {terms : TermSum α}
    (h : ∀ t ∈ terms, ∀ name exponent, t.powers.get? name = some exponent → P name exponent) :
    ∀ t ∈ reduce terms, ∀ name exponent, t.powers.get? name = some exponent →
      P name exponent :=
  reduce_forall Term.forall_powers_zero (fun _ c ht => Term.forall_powers_normalise c ht) h

theorem reduce_within {terms : TermSum α} {S : Set String} (h : ∀ t ∈ terms, t.Within S) :
    ∀ t ∈ reduce terms, t.Within S := forall_powers_reduce h

/-- **What merging one term can do.**  If a term with its powers is there, the first such one
takes up the coefficient and goes if nothing is left; otherwise the term is appended. -/
theorem mergeTerm_cases [OrderedNumber α] (t : Term α) (terms : TermSum α) :
    (∃ before s after, terms = before ++ s :: after ∧ s.hasPowersOf t = true ∧
      ((s.coefficient + t.coefficient == 0) = true ∧ mergeTerm t terms = before ++ after ∨
        (s.coefficient + t.coefficient == 0) = false ∧ mergeTerm t terms
          = before ++ s.withCoefficient (s.coefficient + t.coefficient) :: after)) ∨
    ((∀ s ∈ terms, s.hasPowersOf t = false) ∧ mergeTerm t terms = terms ++ [t]) := by
  induction terms with
  | nil => exact Or.inr ⟨by simp, rfl⟩
  | cons s rest ih =>
    rw [mergeTerm]
    by_cases hp : s.hasPowersOf t = true
    · refine Or.inl ⟨[], s, rest, rfl, hp, ?_⟩
      rw [if_pos hp]
      dsimp only
      cases hc : s.coefficient + t.coefficient == 0 with
      | true =>
        have hz : (s.withCoefficient (s.coefficient + t.coefficient)).isZero = true := by
          rw [Term.withCoefficient, Term.normalise_of_isZero hc]
          exact Term.isZero_zero
        rw [if_pos hz]
        exact Or.inl ⟨rfl, rfl⟩
      | false =>
        refine Or.inr ⟨rfl, if_neg ?_⟩
        rw [Term.withCoefficient_of_ne s hc, Term.isZero, hc]
        simp
    · rw [if_neg hp]
      rcases ih with ⟨before, u, after, rfl, hu, hcase⟩ | ⟨hnone, heq⟩
      · refine Or.inl ⟨s :: before, u, after, rfl, hu, ?_⟩
        rcases hcase with ⟨hc, heq⟩ | ⟨hc, heq⟩
        · exact Or.inl ⟨hc, by rw [heq]; rfl⟩
        · exact Or.inr ⟨hc, by rw [heq]; rfl⟩
      · exact Or.inr ⟨List.forall_mem_cons.mpr ⟨by simpa using hp, hnone⟩, by rw [heq]; rfl⟩

/-! ### What the reduction builds -/

/-- What holds of the sum at every step of merging. -/
structure Merged (terms : TermSum α) : Prop where
  nonzero : ∀ t ∈ terms, t.isZero = false
  distinct : terms.Pairwise (fun s t => s.hasPowersOf t = false)

theorem Merged.nil : Merged ([] : TermSum α) := ⟨by simp, List.Pairwise.nil⟩

/-- Terms can be left out. -/
theorem Merged.sublist {terms terms' : TermSum α} (h : Merged terms)
    (hsub : List.Sublist terms' terms) : Merged terms' :=
  ⟨fun t ht => h.nonzero t (hsub.subset ht), h.distinct.sublist hsub⟩

/-- A coefficient can be replaced by one that is not zero. -/
theorem Merged.replace {before after : TermSum α} {s : Term α}
    (h : Merged (before ++ s :: after)) {c : α} (hc : (c == 0) = false) :
    Merged (before ++ s.withCoefficient c :: after) := by
  obtain ⟨hnonzero, hdistinct⟩ := h
  rw [List.forall_mem_append, List.forall_mem_cons] at hnonzero
  rw [Term.withCoefficient_of_ne s hc]
  refine ⟨?_, ?_⟩
  · rw [List.forall_mem_append, List.forall_mem_cons]
    exact ⟨hnonzero.1, hc, hnonzero.2.2⟩
  · -- only the powers count, and they stay
    rw [List.pairwise_append, List.pairwise_cons] at hdistinct ⊢
    obtain ⟨hbefore, hafter, hcross⟩ := hdistinct
    refine ⟨hbefore, hafter, fun u hu => ?_⟩
    rw [List.forall_mem_cons]
    exact List.forall_mem_cons.mp (hcross u hu)

/-- A term with other powers can be appended. -/
theorem Merged.append {terms : TermSum α} (h : Merged terms) {t : Term α}
    (hz : t.isZero = false) (hnone : ∀ s ∈ terms, s.hasPowersOf t = false) :
    Merged (terms ++ [t]) := by
  refine ⟨?_, ?_⟩
  · rw [List.forall_mem_append, List.forall_mem_singleton]
    exact ⟨h.nonzero, hz⟩
  · refine List.pairwise_append.mpr ⟨h.distinct, List.pairwise_singleton _ _, ?_⟩
    intro u hu v hv
    exact List.mem_singleton.mp hv ▸ hnone u hu

/-- A sum whose terms have different powers and are not zero, save for the one zero term of the
zero sum. -/
structure Canonical (terms : TermSum α) : Prop where
  distinct : terms.Pairwise (fun s t => s.hasPowersOf t = false)
  zeroAlone : terms = [Term.zero] ∨ terms ≠ [] ∧ ∀ t ∈ terms, t.isZero = false

theorem Canonical.ne_nil {terms : TermSum α} (h : Canonical terms) : terms ≠ [] := by
  rcases h.zeroAlone with rfl | ⟨hne, -⟩
  · exact List.cons_ne_nil _ _
  · exact hne

/-- A merged sum is canonical, once a zero stands for the sum of nothing. -/
theorem Merged.canonical_orZero {terms : TermSum α} (h : Merged terms) :
    Canonical (orZero terms) := by
  cases terms with
  | nil =>
    exact ⟨List.pairwise_singleton _ _, Or.inl rfl⟩
  | cons t rest =>
    exact ⟨h.distinct, Or.inr ⟨List.cons_ne_nil _ _, h.nonzero⟩⟩

section Ordered

variable [OrderedNumber α]

theorem Merged.step {sum : TermSum α} (h : Merged sum) (t : Term α) : Merged (mergeStep sum t) := by
  rw [mergeStep]
  by_cases hz : t.isZero = true
  · rw [if_pos hz]
    exact h
  · rw [if_neg hz]
    rcases mergeTerm_cases t sum with
      ⟨before, s, after, rfl, -, ⟨-, heq⟩ | ⟨hc, heq⟩⟩ | ⟨hnone, heq⟩
    · rw [heq]
      exact h.sublist (List.Sublist.append_left (List.sublist_cons_self s after) before)
    · rw [heq]
      exact h.replace hc
    · rw [heq]
      exact h.append (by simpa using hz) hnone

theorem merged_merge (terms : TermSum α) : Merged (merge terms) :=
  merge_induction Merged.nil fun _ h t _ => h.step t

theorem hasPowersOf_symm (s t : Term α) : s.hasPowersOf t = t.hasPowersOf s := by
  have key : ∀ (s t : Term α), s.hasPowersOf t = true → t.hasPowersOf s = true := by
    intro s t h
    rw [Term.hasPowersOf, NameMap.agrees_iff] at h ⊢
    refine (h.imp ?_).flip
    rintro a b ⟨hname, heq⟩
    exact ⟨hname.symm, OrderedNumber.eq_symm a.2 b.2 ▸ heq⟩
  exact Bool.eq_iff_iff.mpr ⟨key s t, key t s⟩

/-- The order of the terms does not matter. -/
theorem Canonical.perm {terms terms' : TermSum α} (h : Canonical terms)
    (hperm : terms'.Perm terms) : Canonical terms' := by
  have hsymm : ∀ {s t : Term α}, s.hasPowersOf t = false → t.hasPowersOf s = false :=
    fun {s t} h => hasPowersOf_symm s t ▸ h
  refine ⟨(hperm.pairwise_iff hsymm).mpr h.distinct, ?_⟩
  rcases h.zeroAlone with rfl | ⟨hne, hnonzero⟩
  · exact Or.inl (List.perm_singleton.mp hperm)
  · refine Or.inr ⟨?_, fun t ht => hnonzero t (hperm.mem_iff.mp ht)⟩
    rintro rfl
    exact hne hperm.symm.eq_nil

/-- **A reduced sum is canonical.** -/
theorem reduce_canonical (terms : TermSum α) : Canonical (reduce terms) :=
  (merged_merge terms).canonical_orZero.perm (stableSort_perm _ _)

end Ordered

/-! ### Reducing twice -/

/-- A term with other powers than those before it is appended. -/
theorem mergeTerm_of_forall {t : Term α} {terms : TermSum α}
    (h : ∀ s ∈ terms, s.hasPowersOf t = false) : mergeTerm t terms = terms ++ [t] := by
  induction terms with
  | nil => rfl
  | cons s rest ih =>
    obtain ⟨hs, hrest⟩ := List.forall_mem_cons.mp h
    rw [mergeTerm, if_neg (by simp [hs]), ih hrest]
    rfl

/-- There is nothing to merge where all terms have different powers and none is zero. -/
theorem merge_eq_self {terms : TermSum α} (hnonzero : ∀ t ∈ terms, t.isZero = false)
    (hdistinct : terms.Pairwise (fun s t => s.hasPowersOf t = false)) : merge terms = terms := by
  have key : ∀ ts acc : TermSum α, (∀ t ∈ ts, t.isZero = false) →
      (acc ++ ts).Pairwise (fun s t => s.hasPowersOf t = false) →
      ts.foldl mergeStep acc = acc ++ ts := by
    intro ts
    induction ts with
    | nil => intro acc _ _; simp
    | cons t rest ih =>
      intro acc hnonzero hdistinct
      obtain ⟨ht, hrest⟩ := List.forall_mem_cons.mp hnonzero
      obtain ⟨-, -, hcross⟩ := List.pairwise_append.mp hdistinct
      have hstep : mergeStep acc t = acc ++ [t] := by
        rw [mergeStep, if_neg (by simp [ht])]
        exact mergeTerm_of_forall fun s hs => hcross s hs t List.mem_cons_self
      rw [List.foldl_cons, hstep, ih _ hrest (by simpa using hdistinct)]
      simp
  exact key terms [] hnonzero (by simpa using hdistinct)

theorem orZero_eq_self {terms : TermSum α} (h : terms ≠ []) : orZero terms = terms := by
  cases terms with
  | nil => exact absurd rfl h
  | cons t rest => rfl

/-- Merging leaves a canonical sum as it is: a zero sum is merged to nothing and comes back. -/
theorem Canonical.orZero_merge [OrderedNumber α] {terms : TermSum α} (h : Canonical terms) :
    orZero (merge terms) = terms := by
  rcases h.zeroAlone with rfl | ⟨hne, hnonzero⟩
  · have hstep : mergeStep [] (Term.zero : Term α) = [] := by
      rw [mergeStep, if_pos Term.isZero_zero]
    rw [merge, List.foldl_cons, hstep]
    rfl
  · rw [merge_eq_self hnonzero h.distinct, orZero_eq_self hne]

end TermSum

end PolyAlgebra
