/-
Name maps as sets of entries.

`NameMap.get?` describes a map from the outside; the proofs about terms walk its entries.
Here the two views are tied together: an entry is in the list exactly if it is what `get?`
answers for its name, no name occurs twice, and two maps agree under a test exactly if their
entries do side by side.
-/
import Mathlib
import PolyAlgebra.NameMap

namespace PolyAlgebra.NameMap

variable {β γ : Type}

theorem mem_of_findEntry {l : List (String × β)} {name : String} {value : β}
    (h : findEntry name l = some value) : (name, value) ∈ l := by
  induction l with
  | nil => simp [findEntry] at h
  | cons e rest ih =>
    by_cases hn : name = e.1
    · subst hn
      have : e.2 = value := by simpa [findEntry] using h
      rw [← this]
      exact List.mem_cons_self
    · rw [findEntry, if_neg hn] at h
      exact List.mem_cons_of_mem _ (ih h)

theorem findEntry_of_mem {l : List (String × β)} (hl : l.Pairwise (fun a b => a.1 < b.1))
    {name : String} {value : β} (h : (name, value) ∈ l) : findEntry name l = some value := by
  induction l with
  | nil => simp at h
  | cons e rest ih =>
    obtain ⟨hhead, htail⟩ := List.pairwise_cons.mp hl
    rcases List.mem_cons.mp h with rfl | h
    · simp [findEntry]
    · have hlt : e.1 < name := hhead _ h
      have hne : name ≠ e.1 := fun heq => String.lt_irrefl e.1 (heq ▸ hlt)
      rw [findEntry, if_neg hne, ih htail h]

/-- The entries are what `get?` answers. -/
theorem mem_entries_iff (m : NameMap β) (name : String) (value : β) :
    (name, value) ∈ m.entries ↔ m.get? name = some value :=
  ⟨findEntry_of_mem m.rising, mem_of_findEntry⟩

theorem mem_names_iff (m : NameMap β) (name : String) :
    name ∈ m.names ↔ ∃ value, m.get? name = some value := by
  constructor
  · intro h
    obtain ⟨⟨n, value⟩, he, rfl⟩ := List.mem_map.mp h
    exact ⟨value, (m.mem_entries_iff n value).mp he⟩
  · intro h
    obtain ⟨value, h⟩ := h
    exact List.mem_map.mpr ⟨(name, value), (m.mem_entries_iff name value).mpr h, rfl⟩

theorem names_rising (m : NameMap β) : m.names.Pairwise (· < ·) := List.pairwise_map.mpr m.rising

theorem nodup_names (m : NameMap β) : m.names.Nodup := m.names_rising.nodup

theorem mem_values_iff (m : NameMap β) (value : β) :
    value ∈ m.values ↔ ∃ name, m.get? name = some value := by
  constructor
  · intro h
    obtain ⟨⟨name, v⟩, he, rfl⟩ := List.mem_map.mp h
    exact ⟨name, (m.mem_entries_iff name v).mp he⟩
  · intro h
    obtain ⟨name, h⟩ := h
    exact List.mem_map.mpr ⟨(name, value), (m.mem_entries_iff name value).mpr h, rfl⟩

theorem entries_injective {m n : NameMap β} (h : m.entries = n.entries) : m = n := by
  obtain ⟨l, hl⟩ := m
  obtain ⟨r, hr⟩ := n
  congr

theorem isEmpty_iff (m : NameMap β) : m.isEmpty = true ↔ m = empty := by
  constructor
  · intro h
    exact entries_injective (List.isEmpty_iff.mp h)
  · rintro rfl
    rfl

/-- Maps agree if their entries do, side by side. -/
theorem agrees_iff (test : β → γ → Bool) (m : NameMap β) (n : NameMap γ) :
    m.agrees test n = true ↔
      List.Forall₂ (fun a b => a.1 = b.1 ∧ test a.2 b.2 = true) m.entries n.entries := by
  have key : ∀ (as : List (String × β)) (bs : List (String × γ)),
      agrees.entriesAgree test as bs = true ↔
        List.Forall₂ (fun a b => a.1 = b.1 ∧ test a.2 b.2 = true) as bs := by
    intro as
    induction as with
    | nil => intro bs; cases bs <;> simp [agrees.entriesAgree]
    | cons a as ih =>
      intro bs
      cases bs with
      | nil => simp [agrees.entriesAgree]
      | cons b bs => simp [agrees.entriesAgree, ih]
  exact key m.entries n.entries

/-- Where the test is equality, maps agree only with themselves. -/
theorem agrees_eq_iff [BEq β] [LawfulBEq β] (m n : NameMap β) :
    m.agrees (· == ·) n = true ↔ m = n := by
  rw [agrees_iff]
  constructor
  · intro h
    refine entries_injective (List.forall₂_eq_eq_eq ▸ h.imp ?_)
    rintro a b ⟨h1, h2⟩
    exact Prod.ext h1 (by simpa using h2)
  · rintro rfl
    rw [List.forall₂_same]
    intro e _
    exact ⟨rfl, by simp⟩

/-- A filter that keeps every entry changes nothing. -/
theorem filter_eq_self {keep : String → β → Bool} {m : NameMap β}
    (h : ∀ name value, m.get? name = some value → keep name value = true) :
    m.filter keep = m := by
  refine ext fun name => ?_
  rw [get?_filter]
  cases hv : m.get? name with
  | none => rfl
  | some value => simp [Option.filter, h name value hv]

/-- Pairs that correspond one by one to things with rising names are the entries of their map. -/
theorem entries_ofList {k : γ → String} {R : γ → β → Prop} {xs : List γ}
    {pairs : List (String × β)} (hrising : (xs.map k).Pairwise (· < ·))
    (h : List.Forall₂ (fun x e => k x = e.1 ∧ R x e.2) xs pairs) :
    (ofList pairs).entries = pairs := by
  have hnames : xs.map k = pairs.map Prod.fst := by
    rw [← List.forall₂_eq_eq_eq, List.forall₂_map_left_iff, List.forall₂_map_right_iff]
    exact h.imp fun _ _ he => he.1
  rw [hnames, List.pairwise_map] at hrising
  rw [ofList_entries ⟨pairs, hrising⟩]

/-- The names of a map of pairs are those of the pairs. -/
theorem mem_names_ofList (pairs : List (String × β)) (name : String) :
    name ∈ (ofList pairs).names ↔ ∃ value, (name, value) ∈ pairs := by
  have key : ∀ (ps : List (String × β)) (acc : NameMap β),
      (∃ value, (ps.foldl (fun m e => m.insert e.1 e.2) acc).get? name = some value) ↔
        (∃ value, (name, value) ∈ ps) ∨ ∃ value, acc.get? name = some value := by
    intro ps
    induction ps with
    | nil => intro acc; simp
    | cons e rest ih =>
      intro acc
      rw [List.foldl_cons, ih]
      by_cases hn : name = e.1
      · subst hn
        simp only [get?_insert, if_pos, Option.some.injEq, exists_eq', or_true, true_iff]
        exact Or.inl ⟨e.2, List.mem_cons_self⟩
      · have hne : ∀ value, (name, value) ≠ e := fun value h => hn (by rw [← h])
        simp [get?_insert, hn, hne]
  rw [mem_names_iff, ofList, key]
  simp

/-- What is filed under a name in a map of pairs is the value of some pair with that name. -/
theorem mem_of_get?_ofList {pairs : List (String × β)} {name : String} {value : β}
    (h : (ofList pairs).get? name = some value) : (name, value) ∈ pairs := by
  have key : ∀ (ps : List (String × β)) (acc : NameMap β),
      (ps.foldl (fun m e => m.insert e.1 e.2) acc).get? name = some value →
        (name, value) ∈ ps ∨ acc.get? name = some value := by
    intro ps
    induction ps with
    | nil => intro acc h; exact Or.inr h
    | cons e rest ih =>
      intro acc h
      rcases ih _ h with h | h
      · exact Or.inl (List.mem_cons_of_mem _ h)
      · rw [get?_insert] at h
        split at h
        · rename_i hname
          exact Or.inl (List.mem_cons.mpr (Or.inl (Prod.ext hname (Option.some.inj h).symm)))
        · exact Or.inr h
  rcases key pairs empty h with h | h
  · exact h
  · cases h

end PolyAlgebra.NameMap
