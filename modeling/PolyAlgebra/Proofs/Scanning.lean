/-
Cutting a text into tokens piece by piece.

A token is made of a `Word`: a symbol, a name or a number.  Scanning takes the longest word that
stands at the start of a text (`scanFrom_longest`).  A name is the longest if no letter follows,
a number if no digit and no point does, since these would belong to the same token.

`Scans` says that some characters, in front of others, are cut into tokens of a certain kind
by themselves, wherever they stand.  It passes from pieces to the text they make up, and it
holds of the pieces that texts are made of: spaces and longest words.

Letters, white space, digits and symbols have no character in common.  For the long tables of
letters this is one comparison of ranges with ranges.
-/
import PolyAlgebra.Decimal
import PolyAlgebra.Token.Scan

namespace PolyAlgebra

/-! ### Classes of characters -/

namespace Text

/-- No range of the one table meets one of the other. -/
def apart (left right : List CodeRange) : Bool :=
  left.all fun r => right.all fun s => decide (r.2 < s.1) || decide (s.2 < r.1)

theorem not_isInRanges_of_apart {left right : List CodeRange} (h : apart left right = true)
    {c : Char} (hc : isInRanges left c = true) : isInRanges right c = false := by
  obtain ⟨r, hr, hin⟩ := List.any_eq_true.mp hc
  refine List.any_eq_false.mpr fun s hs => ?_
  have hrs := List.all_eq_true.mp (List.all_eq_true.mp h r hr) s hs
  simp only [Bool.and_eq_true, Bool.or_eq_true, decide_eq_true_eq] at hin hrs ⊢
  omega

/-- White space, the digits, the point and the symbols. -/
def reservedRanges : List CodeRange := blankRanges ++ [(0x28, 0x2B), (0x2D, 0x39), (0x5E, 0x5E)]

/-- Letters are neither white space nor digits nor symbols. -/
theorem not_reserved_of_isAlphabetic {c : Char} (h : isAlphabetic c = true) :
    isInRanges reservedRanges c = false := by
  simp only [isAlphabetic, Bool.or_eq_true] at h
  rcases h with ((((h | h) | h) | h) | h) | h
  · exact not_isInRanges_of_apart (by decide +kernel) h
  · exact not_isInRanges_of_apart (by decide +kernel) h
  · exact not_isInRanges_of_apart (by decide +kernel) h
  · exact not_isInRanges_of_apart (by decide +kernel) h
  · exact not_isInRanges_of_apart (by decide +kernel) h
  · exact not_isInRanges_of_apart (by decide +kernel) h

theorem isDigit_iff (c : Char) : c.isDigit = true ↔ 48 ≤ c.toNat ∧ c.toNat ≤ 57 := by
  simp only [Char.isDigit, Bool.and_eq_true, decide_eq_true_eq]
  exact Iff.rfl

theorem isBlank_of_isAlphabetic {c : Char} (h : isAlphabetic c = true) : isBlank c = false := by
  have hreserved := not_reserved_of_isAlphabetic h
  rw [reservedRanges, isInRanges, List.any_append, Bool.or_eq_false_iff] at hreserved
  exact hreserved.1

theorem isDigit_of_isAlphabetic {c : Char} (h : isAlphabetic c = true) : c.isDigit = false := by
  have hreserved := not_reserved_of_isAlphabetic h
  rw [← Bool.not_eq_true, isDigit_iff]
  simp [reservedRanges, isInRanges] at hreserved
  omega

theorem ne_of_isAlphabetic {c d : Char} (h : isAlphabetic c = true)
    (hd : isInRanges reservedRanges d = true) : c ≠ d := by
  rintro rfl
  rw [not_reserved_of_isAlphabetic h] at hd
  cases hd

theorem ofSymbol?_of_isAlphabetic {c : Char} (h : isAlphabetic c = true) :
    TokenKind.ofSymbol? c = none := by
  unfold TokenKind.ofSymbol?
  rw [if_neg (ne_of_isAlphabetic h (by decide)), if_neg (ne_of_isAlphabetic h (by decide)),
    if_neg (ne_of_isAlphabetic h (by decide)), if_neg (ne_of_isAlphabetic h (by decide)),
    if_neg (ne_of_isAlphabetic h (by decide)), if_neg (ne_of_isAlphabetic h (by decide)),
    if_neg (ne_of_isAlphabetic h (by decide))]

theorem isAlphabetic_of_isDigit {c : Char} (h : c.isDigit = true) : isAlphabetic c = false := by
  rw [← Bool.not_eq_true]
  intro halphabetic
  rw [isDigit_of_isAlphabetic halphabetic] at h
  cases h

theorem isBlank_of_isDigit {c : Char} (h : c.isDigit = true) : isBlank c = false := by
  rw [isDigit_iff] at h
  simp [isBlank, isInRanges, blankRanges]
  omega

theorem ofSymbol?_of_isDigit {c : Char} (h : c.isDigit = true) :
    TokenKind.ofSymbol? c = none := by
  have hne : ∀ d : Char, d.isDigit = false → c ≠ d := by
    rintro d hd rfl
    rw [h] at hd
    cases hd
  unfold TokenKind.ofSymbol?
  rw [if_neg (hne _ (by decide)), if_neg (hne _ (by decide)), if_neg (hne _ (by decide)),
    if_neg (hne _ (by decide)), if_neg (hne _ (by decide)), if_neg (hne _ (by decide)),
    if_neg (hne _ (by decide))]

/-! ### Symbols -/

section Symbols

variable {c : Char} {kind : TokenKind}

/-- What can be checked of each symbol holds of a character that is one. -/
theorem of_ofSymbol? {p : Char → Bool} (hp : ['(', ')', '+', '-', '*', '/', '^'].all p = true)
    (h : TokenKind.ofSymbol? c = some kind) : p c = true := by
  refine List.all_eq_true.mp hp c (Decidable.byContradiction fun hnone => ?_)
  simp only [List.mem_cons, List.not_mem_nil, or_false, not_or] at hnone
  simp [TokenKind.ofSymbol?, hnone] at h

theorem isBlank_of_ofSymbol? (h : TokenKind.ofSymbol? c = some kind) : isBlank c = false := by
  simpa using of_ofSymbol? (p := fun d => !isBlank d) (by decide) h

theorem isAlphabetic_of_ofSymbol? (h : TokenKind.ofSymbol? c = some kind) :
    isAlphabetic c = false := by
  rw [← Bool.not_eq_true]
  intro hc
  rw [ofSymbol?_of_isAlphabetic hc] at h
  cases h

theorem isDigit_of_ofSymbol? (h : TokenKind.ofSymbol? c = some kind) : c.isDigit = false := by
  rw [← Bool.not_eq_true]
  intro hc
  rw [ofSymbol?_of_isDigit hc] at h
  cases h

/-- No symbol makes up a name or a number. -/
theorem kind_of_ofSymbol? (h : TokenKind.ofSymbol? c = some kind) :
    kind ≠ .identifier ∧ kind ≠ .number := by
  have hkind := of_ofSymbol? (p := fun d => TokenKind.ofSymbol? d != some .identifier &&
    TokenKind.ofSymbol? d != some .number) (by decide) h
  simpa [h] using hkind

end Symbols

end Text

namespace Token

/-! ### Words -/

/-- No letter follows. -/
def EndsName (rest : List Char) : Prop := ∀ c cs, rest = c :: cs → Text.isAlphabetic c = false

/-- No digit and no point follows. -/
def EndsNumber (rest : List Char) : Prop :=
  ∀ c cs, rest = c :: cs → c.isDigit = false ∧ c ≠ '.'

theorem takeWhile_append_of_ends {p : Char → Bool} {cs rest : List Char}
    (hcs : ∀ c ∈ cs, p c = true) (hrest : ∀ c ds, rest = c :: ds → p c = false) :
    (cs ++ rest).takeWhile p = cs ∧ (cs ++ rest).dropWhile p = rest := by
  rw [List.takeWhile_append_of_pos hcs, List.dropWhile_append_of_pos hcs]
  cases rest with
  | nil => simp
  | cons c ds => simp [hrest c ds rfl]

/-- What a token of a kind may be made of. -/
inductive Word : TokenKind → List Char → Prop
  | symbol {kind : TokenKind} {c : Char} (h : TokenKind.ofSymbol? c = some kind) : Word kind [c]
  | identifier {name : List Char} (hne : name ≠ [])
      (h : ∀ c ∈ name, Text.isAlphabetic c = true) : Word .identifier name
  | whole {digits : List Char} (hne : digits ≠ []) (h : ∀ c ∈ digits, c.isDigit = true) :
      Word .number digits
  | decimal {digits places : List Char} (hne : digits ≠ [])
      (h : ∀ c ∈ digits, c.isDigit = true) (hplaces : ∀ c ∈ places, c.isDigit = true) :
      Word .number (digits ++ '.' :: places)

variable {kind : TokenKind} {piece rest : List Char}

theorem Word.ne_nil (h : Word kind piece) : piece ≠ [] := by
  cases h <;> simp_all

/-- An identifier has letters only. -/
theorem Word.isAlphabetic (h : Word .identifier piece) :
    ∀ c ∈ piece, Text.isAlphabetic c = true := by
  generalize hkind : TokenKind.identifier = kind at h
  cases h with
  | symbol h => exact absurd hkind.symm (Text.kind_of_ofSymbol? h).1
  | identifier _ h => exact h
  | whole => cases hkind
  | decimal => cases hkind

/-- A number is a run of digits, or two with a point between them. -/
theorem Word.number_cases (h : Word .number piece) :
    (piece ≠ [] ∧ ∀ c ∈ piece, c.isDigit = true) ∨
      ∃ digits places, digits ≠ [] ∧ (∀ c ∈ digits, c.isDigit = true) ∧
        (∀ c ∈ places, c.isDigit = true) ∧ piece = digits ++ '.' :: places := by
  generalize hkind : TokenKind.number = kind at h
  cases h with
  | symbol h => exact absurd hkind.symm (Text.kind_of_ofSymbol? h).2
  | identifier => cases hkind
  | whole hne h => exact .inl ⟨hne, h⟩
  | decimal hne h hplaces => exact .inr ⟨_, _, hne, h, hplaces, rfl⟩

/-- A number has digits and at most one point. -/
theorem Word.number (h : Word .number piece) :
    (∀ c ∈ piece, c.isDigit = true ∨ c = '.') ∧ piece.count '.' ≤ 1 := by
  have hpoint : ∀ {ds : List Char}, (∀ c ∈ ds, c.isDigit = true) → ds.count '.' = 0 := by
    intro ds h
    refine List.count_eq_zero.mpr fun hmem => ?_
    exact absurd (h '.' hmem) (by decide)
  rcases h.number_cases with ⟨-, hdigits⟩ | ⟨digits, places, -, hdigits, hplaces, rfl⟩
  · exact ⟨fun c hc => .inl (hdigits c hc), by rw [hpoint hdigits]; exact Nat.zero_le 1⟩
  · refine ⟨fun c hc => ?_, Nat.le_of_eq ?_⟩
    · rcases List.mem_append.mp hc with hc | hc
      · exact .inl (hdigits c hc)
      · exact (List.mem_cons.mp hc).elim .inr fun hc => .inl (hplaces c hc)
    · rw [List.count_append, List.count_cons_self, hpoint hdigits, hpoint hplaces]

/-- The word that a text starts with: no longer one does. -/
structure Longest (kind : TokenKind) (piece rest : List Char) : Prop where
  word : Word kind piece
  longest : ∀ more later, rest = more ++ later → Word kind (piece ++ more) → more = []

theorem Longest.of_append {later : List Char} (h : Longest kind piece (rest ++ later)) :
    Longest kind piece rest :=
  ⟨h.word, fun more after heq hword =>
    h.longest more (after ++ later) (by rw [heq, List.append_assoc]) hword⟩

theorem Longest.endsName (h : Longest .identifier piece rest) : EndsName rest := by
  rintro c cs rfl
  rw [← Bool.not_eq_true]
  intro hc
  refine List.cons_ne_nil c [] (h.longest [c] cs rfl (.identifier (by simp) ?_))
  rw [List.forall_mem_append, List.forall_mem_singleton]
  exact ⟨h.word.isAlphabetic, hc⟩

/-- After digits that are the longest number there is neither a digit nor a point. -/
theorem Longest.whole_end {digits : List Char} (h : Longest .number digits rest)
    (hdigits : ∀ c ∈ digits, c.isDigit = true) : EndsNumber rest := by
  rintro c cs rfl
  constructor
  · rw [← Bool.not_eq_true]
    intro hc
    refine List.cons_ne_nil c [] (h.longest [c] cs rfl (.whole (by simp) ?_))
    rw [List.forall_mem_append, List.forall_mem_singleton]
    exact ⟨hdigits, hc⟩
  · rintro rfl
    have hword : Word .number (digits ++ ['.']) := .decimal h.word.ne_nil hdigits (by simp)
    exact List.cons_ne_nil '.' [] (h.longest ['.'] cs rfl hword)

theorem Longest.decimal_end {digits places : List Char}
    (h : Longest .number (digits ++ '.' :: places) rest) (hne : digits ≠ [])
    (hdigits : ∀ c ∈ digits, c.isDigit = true) (hplaces : ∀ c ∈ places, c.isDigit = true) :
    ∀ c cs, rest = c :: cs → c.isDigit = false := by
  rintro c cs rfl
  rw [← Bool.not_eq_true]
  intro hc
  refine List.cons_ne_nil c [] (h.longest [c] cs rfl ?_)
  rw [List.append_assoc, List.cons_append]
  refine .decimal hne hdigits ?_
  rw [List.forall_mem_append, List.forall_mem_singleton]
  exact ⟨hplaces, hc⟩

/-- Symbols are words of one character. -/
theorem Word.symbol_eq {c : Char} (h : Word kind piece) (hc : TokenKind.ofSymbol? c = some kind) :
    ∃ d, piece = [d] := by
  cases h with
  | symbol => exact ⟨_, rfl⟩
  | identifier => exact absurd rfl (Text.kind_of_ofSymbol? hc).1
  | whole => exact absurd rfl (Text.kind_of_ofSymbol? hc).2
  | decimal => exact absurd rfl (Text.kind_of_ofSymbol? hc).2

/-- A word is the longest if no word goes on with the next character. -/
theorem Word.longest (h : Word kind piece)
    (hend : ∀ c cs more, rest = c :: cs → ¬ Word kind (piece ++ c :: more)) :
    Longest kind piece rest := by
  refine ⟨h, fun more later heq hword => ?_⟩
  cases more with
  | nil => rfl
  | cons c more => exact absurd hword (hend c (more ++ later) more heq)

theorem longest_symbol {c : Char} (h : TokenKind.ofSymbol? c = some kind) (rest : List Char) :
    Longest kind [c] rest := by
  refine (Word.symbol h).longest fun d ds more _ hword => ?_
  obtain ⟨e, he⟩ := hword.symbol_eq h
  simp at he

theorem longest_identifier {name : List Char} (hne : name ≠ [])
    (h : ∀ c ∈ name, Text.isAlphabetic c = true) (hend : EndsName rest) :
    Longest .identifier name rest := by
  refine (Word.identifier hne h).longest fun c cs more heq hword => ?_
  have hc := hword.isAlphabetic c (by simp)
  rw [hend c cs heq] at hc
  cases hc

theorem longest_whole {digits : List Char} (hne : digits ≠ [])
    (h : ∀ c ∈ digits, c.isDigit = true) (hend : EndsNumber rest) :
    Longest .number digits rest := by
  refine (Word.whole hne h).longest fun c cs more heq hword => ?_
  obtain ⟨hdigit, hpoint⟩ := hend c cs heq
  rcases hword.number.1 c (by simp) with hc | hc
  · rw [hdigit] at hc
    cases hc
  · exact hpoint hc

theorem longest_decimal {digits places : List Char} (hne : digits ≠ [])
    (h : ∀ c ∈ digits, c.isDigit = true) (hplaces : ∀ c ∈ places, c.isDigit = true)
    (hend : ∀ c cs, rest = c :: cs → c.isDigit = false) :
    Longest .number (digits ++ '.' :: places) rest := by
  refine (Word.decimal hne h hplaces).longest fun c cs more heq hword => ?_
  obtain ⟨hchars, hcount⟩ := hword.number
  rcases hchars c (by simp) with hc | rfl
  · rw [hend c cs heq] at hc
    cases hc
  · -- a second point
    simp [List.count_append] at hcount
    omega

/-- **Scanning takes the longest word.** -/
theorem scanFrom_longest (h : Longest kind piece rest) (position : Nat) :
    scanFrom position (piece ++ rest) = (ofChars kind position piece :: ·) <$>
      scanFrom (position + byteLength piece) rest := by
  cases h.word with
  | symbol hc =>
    rw [List.singleton_append, scanFrom, if_neg (by simp [Text.isBlank_of_ofSymbol? hc]), hc,
      byteLength, byteLength, Nat.add_zero]
  | identifier hne hname =>
    obtain ⟨c, cs, rfl⟩ := List.exists_cons_of_ne_nil hne
    obtain ⟨hc, hcs⟩ := List.forall_mem_cons.mp hname
    obtain ⟨htake, hdrop⟩ := takeWhile_append_of_ends hcs h.endsName
    rw [List.cons_append, scanFrom, if_neg (by simp [Text.isBlank_of_isAlphabetic hc]),
      Text.ofSymbol?_of_isAlphabetic hc, if_pos hc]
    simp only [splitIdentifier, htake, hdrop]
  | whole hne hdigits =>
    have hend := h.whole_end hdigits
    obtain ⟨c, cs, rfl⟩ := List.exists_cons_of_ne_nil hne
    obtain ⟨hc, hcs⟩ := List.forall_mem_cons.mp hdigits
    have hsplit : splitNumber (cs ++ rest) = (cs, rest) := by
      obtain ⟨htake, hdrop⟩ := takeWhile_append_of_ends hcs fun c ds h => (hend c ds h).1
      rw [splitNumber, htake, hdrop]
      cases rest with
      | nil => rfl
      | cons c ds => simp only [if_neg (hend c ds rfl).2]
    rw [List.cons_append, scanFrom, if_neg (by simp [Text.isBlank_of_isDigit hc]),
      Text.ofSymbol?_of_isDigit hc, if_neg (by simp [Text.isAlphabetic_of_isDigit hc]), if_pos hc]
    simp only [hsplit]
  | @decimal digits places hne hdigits hplaces =>
    have hend := h.decimal_end hne hdigits hplaces
    obtain ⟨c, cs, rfl⟩ := List.exists_cons_of_ne_nil hne
    obtain ⟨hc, hcs⟩ := List.forall_mem_cons.mp hdigits
    have hsplit : splitNumber (cs ++ '.' :: (places ++ rest)) = (cs ++ '.' :: places, rest) := by
      have hpoint : ∀ d ds, '.' :: (places ++ rest) = d :: ds → d.isDigit = false := by
        rintro d ds hd
        obtain ⟨rfl, -⟩ := List.cons.inj hd
        decide
      obtain ⟨htake, hdrop⟩ := takeWhile_append_of_ends hcs hpoint
      obtain ⟨htake', hdrop'⟩ := takeWhile_append_of_ends hplaces hend
      rw [splitNumber, htake, hdrop]
      simp only [if_pos, htake', hdrop']
    rw [List.append_assoc, List.cons_append, List.cons_append, scanFrom,
      if_neg (by simp [Text.isBlank_of_isDigit hc]), Text.ofSymbol?_of_isDigit hc,
      if_neg (by simp [Text.isAlphabetic_of_isDigit hc]), if_pos hc]
    simp only [hsplit, List.cons_append]

/-! ### Pieces of a text -/

theorem byteLength_append (cs ds : List Char) :
    byteLength (cs ++ ds) = byteLength cs + byteLength ds := by
  induction cs with
  | nil => simp [byteLength]
  | cons c rest ih => rw [List.cons_append, byteLength, byteLength, ih, Nat.add_assoc]

/-- Characters that are cut into tokens with a property, in front of others. -/
def Scans (cs : List Char) (P : List Token → Prop) (rest : List Char) : Prop :=
  ∀ position, ∃ ts, P ts ∧
    scanFrom position (cs ++ rest)
      = (ts ++ ·) <$> scanFrom (position + byteLength cs) rest

theorem Scans.mono {cs rest : List Char} {P Q : List Token → Prop} (h : Scans cs P rest)
    (hPQ : ∀ ts, P ts → Q ts) : Scans cs Q rest := by
  intro position
  obtain ⟨ts, hts, hscan⟩ := h position
  exact ⟨ts, hPQ ts hts, hscan⟩

theorem Scans.append {cs ds rest : List Char} {P Q R : List Token → Prop}
    (hc : Scans cs P (ds ++ rest)) (hd : Scans ds Q rest)
    (hR : ∀ ts us, P ts → Q us → R (ts ++ us)) : Scans (cs ++ ds) R rest := by
  intro position
  obtain ⟨ts, hts, hscan⟩ := hc position
  obtain ⟨us, hus, hscan'⟩ := hd (position + byteLength cs)
  refine ⟨ts ++ us, hR ts us hts hus, ?_⟩
  rw [List.append_assoc, hscan, hscan', byteLength_append, Nat.add_assoc]
  cases scanFrom (position + (byteLength cs + byteLength ds)) rest with
  | error e => rfl
  | ok tokens => simp [Functor.map, Except.map]

theorem Scans.nil {P : List Token → Prop} (hP : P []) (rest : List Char) : Scans [] P rest := by
  intro position
  refine ⟨[], hP, ?_⟩
  rw [List.nil_append, byteLength, Nat.add_zero]
  cases scanFrom position rest <;> rfl

theorem Scans.blank {c : Char} (h : Text.isBlank c = true) (rest : List Char) :
    Scans [c] (· = []) rest := by
  intro position
  refine ⟨[], rfl, ?_⟩
  rw [List.singleton_append, scanFrom, if_pos h, byteLength, byteLength, Nat.add_zero]
  cases scanFrom (position + c.utf8Size) rest <;> rfl

/-- **A longest word is cut off as a token.** -/
theorem Scans.word (h : Longest kind piece rest) :
    Scans piece (fun ts => ∃ s, ts = [⟨kind, String.ofList piece, s⟩]) rest := fun position =>
  ⟨[ofChars kind position piece], ⟨_, rfl⟩, scanFrom_longest h position⟩

theorem Scans.symbol {c : Char} (hkind : TokenKind.ofSymbol? c = some kind) (rest : List Char) :
    Scans [c] (fun ts => ∃ text s, ts = [⟨kind, text, s⟩]) rest :=
  (Scans.word (longest_symbol hkind rest)).mono fun _ hts => ⟨_, hts⟩

theorem Scans.name {name : String} (hne : name ≠ "")
    (hname : ∀ c ∈ name.toList, Text.isAlphabetic c = true) (hrest : EndsName rest) :
    Scans name.toList (fun ts => ∃ s, ts = [⟨.identifier, name, s⟩]) rest := by
  have hne : name.toList ≠ [] := fun h => hne (String.toList_eq_nil_iff.mp h)
  have hword := Scans.word (longest_identifier hne hname hrest)
  rwa [String.ofList_toList] at hword

/-- What stands in parentheses is scanned between the two. -/
theorem Scans.parenthesised {cs : List Char} {P : List Token → Prop} {rest : List Char}
    (h : Scans cs P (')' :: rest)) :
    Scans ('(' :: (cs ++ [')'])) (fun ts => ∃ opening s₁ us closing s₂,
      ts = ⟨.openParen, opening, s₁⟩ :: (us ++ [⟨.closeParen, closing, s₂⟩]) ∧ P us) rest := by
  have hopen := Scans.symbol (by decide : TokenKind.ofSymbol? '(' = some .openParen)
    (cs ++ [')'] ++ rest)
  have hclose := Scans.symbol (by decide : TokenKind.ofSymbol? ')' = some .closeParen) rest
  have hinner := h.append hclose (R := fun ts => ∃ us closing s,
    ts = us ++ [⟨.closeParen, closing, s⟩] ∧ P us) (by
      intro us back hus hback
      obtain ⟨closing, s, rfl⟩ := hback
      exact ⟨us, closing, s, rfl, hus⟩)
  refine hopen.append hinner ?_
  intro front back hfront hback
  obtain ⟨opening, s₁, rfl⟩ := hfront
  obtain ⟨us, closing, s₂, rfl, hus⟩ := hback
  exact ⟨opening, s₁, us, closing, s₂, rfl, hus⟩

/-! ### Numbers -/

theorem isDigit_digitChar (n : Nat) : (Nat.digitChar (n % 10)).isDigit = true := by
  have hlt : n % 10 < 10 := Nat.mod_lt _ (by decide)
  generalize n % 10 = d at hlt
  match d, hlt with
  | 0, _ | 1, _ | 2, _ | 3, _ | 4, _ | 5, _ | 6, _ | 7, _ | 8, _ | 9, _ => decide

theorem isDigit_lastDigits (count n : Nat) :
    ∀ c ∈ Decimal.lastDigits count n, c.isDigit = true := by
  induction count generalizing n with
  | zero => simp [Decimal.lastDigits]
  | succ count ih =>
    intro c hc
    rcases List.mem_append.mp hc with hc | hc
    · exact ih _ c hc
    · rw [List.mem_singleton.mp hc]
      exact isDigit_digitChar n

/-- A decimal is a run of digits, perhaps with a point and more digits. -/
theorem longest_decimal_chars (d : Decimal) (hrest : EndsNumber rest) :
    Longest .number d.chars rest := by
  have hdigits : ∀ c ∈ Nat.toDigits 10 (Decimal.dropDigits d.places d.digits), c.isDigit = true :=
    fun c hc => Nat.isDigit_of_mem_toDigits (by decide) (by decide) hc
  rw [Decimal.chars]
  split
  · rw [List.append_nil]
    exact longest_whole Nat.toDigits_ne_nil hdigits hrest
  · exact longest_decimal Nat.toDigits_ne_nil hdigits (isDigit_lastDigits d.places d.digits)
      fun c cs h => (hrest c cs h).1

theorem Scans.decimal (d : Decimal) (hrest : EndsNumber rest) :
    Scans d.chars (fun ts => ∃ s, ts = [⟨.number, d.text, s⟩]) rest :=
  Scans.word (longest_decimal_chars d hrest)

/-- A whole text that scans is cut into tokens. -/
theorem Scans.scan {text : String} {P : List Token → Prop} (h : Scans text.toList P []) :
    ∃ ts, P ts ∧ scan text = .ok ts := by
  obtain ⟨ts, hts, hscan⟩ := h 0
  have hend : scanFrom (0 + byteLength text.toList) [] = .ok [] := by rw [scanFrom]
  rw [List.append_nil, hend] at hscan
  refine ⟨ts, hts, hscan.trans ?_⟩
  show Except.ok (ts ++ []) = _
  rw [List.append_nil]

end Token

end PolyAlgebra
