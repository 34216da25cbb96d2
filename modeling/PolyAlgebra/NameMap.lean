/-
Finite maps from names.

The exponents of a monomial, the coordinates of a point and the components of a vector
are all values filed under variable names, and all of them are shown in name order.  So
a map here is a list of entries whose names strictly rise, and the rising order is part
of the type.  A map is then determined by what `get?` answers (`NameMap.ext`): two ways
of building it that answer alike give equal values, not merely equivalent ones.

Each operation is described by one equation about `get?`.  Insertion walks the list once
and replaces on collision, so the equations about the bare list hold whether or not the
list is sorted; only extensionality needs the order.
-/
namespace PolyAlgebra

/-- Values filed under names, in strictly rising name order. -/
structure NameMap (β : Type) where
  /-- The names with their values. -/
  entries : List (String × β)
  /-- Names strictly rise, so none occurs twice. -/
  rising : entries.Pairwise (fun a b => a.1 < b.1)

namespace NameMap

variable {β γ : Type}

/-! ### Entry lists

The operations on bare lists of entries, before the order is bundled in.
-/

/-- File a value under a name in a list of rising entries. -/
def insertEntry (name : String) (value : β) : List (String × β) → List (String × β)
  | [] => [(name, value)]
  | e :: rest =>
    if name < e.1 then (name, value) :: e :: rest
    else if name = e.1 then (name, value) :: rest
    else e :: insertEntry name value rest

/-- The value under a name in a list of entries. -/
def findEntry (name : String) : List (String × β) → Option β
  | [] => none
  | e :: rest => if name = e.1 then some e.2 else findEntry name rest

theorem mem_insertEntry {name : String} {value : β} {a : String × β} {l : List (String × β)}
    (h : a ∈ insertEntry name value l) : a = (name, value) ∨ a ∈ l := by
  induction l with
  | nil => exact Or.inl (by simpa [insertEntry] using h)
  | cons e rest ih =>
    rw [insertEntry] at h
    split at h
    · simpa using h
    · split at h
      · rcases List.mem_cons.mp h with h | h
        · exact Or.inl h
        · exact Or.inr (List.mem_cons_of_mem _ h)
      · rcases List.mem_cons.mp h with h | h
        · exact Or.inr (h ▸ List.mem_cons_self)
        · exact (ih h).imp_right (List.mem_cons_of_mem _)

theorem insertEntry_rising (name : String) (value : β) {l : List (String × β)}
    (h : l.Pairwise (fun a b => a.1 < b.1)) :
    (insertEntry name value l).Pairwise (fun a b => a.1 < b.1) := by
  induction l with
  | nil => simp [insertEntry]
  | cons e rest ih =>
    obtain ⟨hhead, htail⟩ := List.pairwise_cons.mp h
    rw [insertEntry]
    split
    · rename_i hlt
      refine List.pairwise_cons.mpr ⟨?_, h⟩
      intro a ha
      rcases List.mem_cons.mp ha with rfl | ha
      · exact hlt
      · exact String.lt_trans hlt (hhead a ha)
    · split
      · rename_i heq
        refine List.pairwise_cons.mpr ⟨?_, htail⟩
        intro a ha
        exact heq ▸ hhead a ha
      · rename_i hlt hne
        refine List.pairwise_cons.mpr ⟨?_, ih htail⟩
        intro a ha
        rcases mem_insertEntry ha with rfl | ha
        · refine Classical.byContradiction fun hge => hne ?_
          exact String.le_antisymm (String.not_lt.mp hge) (String.not_lt.mp hlt)
        · exact hhead a ha

theorem findEntry_insertEntry (name other : String) (value : β) (l : List (String × β)) :
    findEntry other (insertEntry name value l) =
      if other = name then some value else findEntry other l := by
  induction l with
  | nil => rfl
  | cons e rest ih =>
    rw [insertEntry]
    split
    · rfl
    · split
      · rename_i heq
        by_cases h : other = name <;> simp_all [findEntry]
      · rename_i hne
        by_cases h : other = name
        · subst h
          simp [findEntry, hne, ih]
        · simp [findEntry, ih, h]

theorem findEntry_map (f : β → γ) (l : List (String × β)) (name : String) :
    findEntry name (l.map (fun e => (e.1, f e.2))) = (findEntry name l).map f := by
  induction l with
  | nil => rfl
  | cons e rest ih => by_cases h : name = e.1 <;> simp [findEntry, h, ← ih]

theorem findEntry_of_lt {l : List (String × β)} {name : String}
    (h : ∀ a ∈ l, name < a.1) : findEntry name l = none := by
  induction l with
  | nil => rfl
  | cons e rest ih =>
    have hlt : name < e.1 := h e List.mem_cons_self
    have hne : name ≠ e.1 := fun heq => String.lt_irrefl e.1 (heq ▸ hlt)
    rw [findEntry, if_neg hne, ih fun a ha => h a (List.mem_cons_of_mem _ ha)]

theorem findEntry_filter (keep : String → β → Bool) {l : List (String × β)}
    (h : l.Pairwise (fun a b => a.1 < b.1)) (name : String) :
    findEntry name (l.filter (fun e => keep e.1 e.2)) =
      (findEntry name l).filter (keep name) := by
  induction l with
  | nil => rfl
  | cons e rest ih =>
    obtain ⟨hhead, htail⟩ := List.pairwise_cons.mp h
    have ih := ih htail
    by_cases hn : name = e.1
    · subst hn
      rw [findEntry_of_lt hhead] at ih
      by_cases hk : keep e.1 e.2 = true <;>
        simp [findEntry, Option.filter, hk, ih]
    · by_cases hk : keep e.1 e.2 = true <;>
        simp [findEntry, hn, hk, ih]

/-- Rising lists in which the same is found under every name are equal. -/
theorem eq_of_findEntry_eq {l r : List (String × β)}
    (hl : l.Pairwise (fun a b => a.1 < b.1)) (hr : r.Pairwise (fun a b => a.1 < b.1))
    (h : ∀ name, findEntry name l = findEntry name r) : l = r := by
  induction l generalizing r with
  | nil =>
    cases r with
    | nil => rfl
    | cons e rest => simpa [findEntry] using h e.1
  | cons a s ih =>
    obtain ⟨ha, hs⟩ := List.pairwise_cons.mp hl
    cases r with
    | nil => simpa [findEntry] using h a.1
    | cons b t =>
      obtain ⟨hb, ht⟩ := List.pairwise_cons.mp hr
      have habsent : ∀ {x y : String × β} {u : List (String × β)},
          (∀ z ∈ u, y.1 < z.1) → x.1 < y.1 → findEntry x.1 (y :: u) = none := by
        intro x y u hu hxy
        refine findEntry_of_lt fun z hz => ?_
        rcases List.mem_cons.mp hz with rfl | hz
        · exact hxy
        · exact String.lt_trans hxy (hu z hz)
      have hname : a.1 = b.1 := by
        refine String.le_antisymm (String.not_lt.mp fun hlt => ?_)
          (String.not_lt.mp fun hlt => ?_)
        · have := h b.1
          rw [habsent ha hlt] at this
          simp [findEntry] at this
        · have := h a.1
          rw [habsent hb hlt] at this
          simp [findEntry] at this
      have hvalue : a.2 = b.2 := by simpa [findEntry, hname] using h a.1
      have hab : a = b := Prod.ext hname hvalue
      subst hab
      rw [ih hs ht fun name => ?_]
      by_cases hn : name = a.1
      · subst hn
        rw [findEntry_of_lt ha, findEntry_of_lt hb]
      · simpa [findEntry, hn] using h name

/-! ### Maps -/

/-- No name has a value. -/
def empty : NameMap β := ⟨[], List.Pairwise.nil⟩

/-- The value under a name. -/
def get? (m : NameMap β) (name : String) : Option β := findEntry name m.entries

/-- Whether a name has a value. -/
def contains (m : NameMap β) (name : String) : Bool := (m.get? name).isSome

/-- The names that have a value, rising. -/
def names (m : NameMap β) : List String := m.entries.map Prod.fst

/-- The values in name order. -/
def values (m : NameMap β) : List β := m.entries.map Prod.snd

/-- How many names have a value. -/
def size (m : NameMap β) : Nat := m.entries.length

/-- Whether no name has a value. -/
def isEmpty (m : NameMap β) : Bool := m.entries.isEmpty

/-- File a value under a name, in place of the one that was there. -/
def insert (m : NameMap β) (name : String) (value : β) : NameMap β :=
  ⟨insertEntry name value m.entries, insertEntry_rising name value m.rising⟩

/-- The map of a list of pairs; of two pairs with one name the later counts. -/
def ofList (pairs : List (String × β)) : NameMap β :=
  pairs.foldl (fun m e => m.insert e.1 e.2) empty

/-- The same names with changed values. -/
def map (f : β → γ) (m : NameMap β) : NameMap γ :=
  ⟨m.entries.map (fun e => (e.1, f e.2)), List.pairwise_map.mpr m.rising⟩

/-- The entries that a test keeps. -/
def filter (keep : String → β → Bool) (m : NameMap β) : NameMap β :=
  ⟨m.entries.filter (fun e => keep e.1 e.2), m.rising.filter _⟩

/-- Whether two maps have the same names, and values under each that pass a test. -/
def agrees (test : β → γ → Bool) (m : NameMap β) (n : NameMap γ) : Bool :=
  entriesAgree m.entries n.entries
where
  /-- The test on entries side by side. -/
  entriesAgree : List (String × β) → List (String × γ) → Bool
    | [], [] => true
    | a :: as, b :: bs => a.1 == b.1 && test a.2 b.2 && entriesAgree as bs
    | _, _ => false

/--
Lay the entries of one map over another.  A name of `m` gets the value that `f` makes of
what `base` holds there, if anything, and of what `m` holds; other names stay as in `base`.
-/
def overlay (f : Option β → γ → β) (base : NameMap β) (m : NameMap γ) : NameMap β :=
  m.entries.foldl (fun acc e => acc.insert e.1 (f (base.get? e.1) e.2)) base

/-- Change every value by a step that can fail; the first failure in name order counts. -/
def mapExcept {ε : Type} (f : β → Except ε γ) (m : NameMap β) : Except ε (NameMap γ) :=
  ofList <$> m.entries.mapM (fun e => (fun value => (e.1, value)) <$> f e.2)

/-! ### What the operations answer -/

@[simp] theorem get?_empty (name : String) : (empty : NameMap β).get? name = none := rfl

theorem get?_insert (m : NameMap β) (name other : String) (value : β) :
    (m.insert name value).get? other = if other = name then some value else m.get? other :=
  findEntry_insertEntry name other value m.entries

@[simp] theorem get?_map (f : β → γ) (m : NameMap β) (name : String) :
    (m.map f).get? name = (m.get? name).map f :=
  findEntry_map f m.entries name

theorem get?_filter (keep : String → β → Bool) (m : NameMap β) (name : String) :
    (m.filter keep).get? name = (m.get? name).filter (keep name) :=
  findEntry_filter keep m.rising name

/-- Two maps that answer alike are equal. -/
theorem ext {m n : NameMap β} (h : ∀ name, m.get? name = n.get? name) : m = n := by
  obtain ⟨l, hl⟩ := m
  obtain ⟨r, hr⟩ := n
  congr
  exact eq_of_findEntry_eq hl hr h

theorem get?_foldl_insert (f : String → γ → β) (l : List (String × γ))
    (h : l.Pairwise (fun a b => a.1 < b.1)) (acc : NameMap β) (name : String) :
    (l.foldl (fun acc e => acc.insert e.1 (f e.1 e.2)) acc).get? name =
      match findEntry name l with
      | some value => some (f name value)
      | none => acc.get? name := by
  induction l generalizing acc with
  | nil => rfl
  | cons e rest ih =>
    obtain ⟨hhead, htail⟩ := List.pairwise_cons.mp h
    rw [List.foldl_cons, ih htail]
    by_cases hn : name = e.1
    · subst hn
      simp [findEntry, findEntry_of_lt hhead, get?_insert]
    · simp [findEntry, hn, get?_insert]

/-- Laying one map over another touches exactly the names of the upper one. -/
theorem get?_overlay (f : Option β → γ → β) (base : NameMap β) (m : NameMap γ)
    (name : String) :
    (base.overlay f m).get? name =
      match m.get? name with
      | some value => some (f (base.get? name) value)
      | none => base.get? name :=
  get?_foldl_insert (fun n value => f (base.get? n) value) m.entries m.rising base name

/-- A map is the map of its own entries. -/
theorem ofList_entries (m : NameMap β) : ofList m.entries = m := by
  refine ext fun name => ?_
  rw [ofList, get?_foldl_insert (fun _ value => value) m.entries m.rising]
  change _ = findEntry name m.entries
  cases findEntry name m.entries <;> rfl

end NameMap

end PolyAlgebra
