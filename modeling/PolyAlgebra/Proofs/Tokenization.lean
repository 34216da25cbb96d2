/-
Cutting a text into tokens loses nothing.

Every text that is not empty starts with white space, with a longest word or with a character
that is foreign to all tokens (`start_cases`).  So a text is one run of these (`text_induction`),
and both outcomes of scanning are followed along the run: an error is the first foreign character,
and what stands before it is cut into tokens (`scanFrom_error`); otherwise the tokens are the words
of the text, and between them is nothing but white space (`scanFrom_covers`).

That a word is the longest looks to its right only.  To its left it is as long as it can be
because the character before it ended another token (`Clear`).
-/
import Mathlib
import PolyAlgebra.Proofs.Outcome
import PolyAlgebra.Proofs.Scanning

namespace PolyAlgebra.Token

variable {kind : TokenKind} {piece rest : List Char}

/-! ### How a text starts -/

/-- A character that belongs to no token and separates none. -/
structure Foreign (c : Char) : Prop where
  notBlank : Text.isBlank c = false
  notSymbol : TokenKind.ofSymbol? c = none
  notLetter : Text.isAlphabetic c = false
  notDigit : c.isDigit = false

theorem scanFrom_foreign {c : Char} (h : Foreign c) (position : Nat) (rest : List Char) :
    scanFrom position (c :: rest) = .error (.invalidCharacter c position) := by
  rw [scanFrom, if_neg (by simp [h.notBlank]), h.notSymbol, if_neg (by simp [h.notLetter]),
    if_neg (by simp [h.notDigit])]

theorem scanFrom_blank {c : Char} (h : Text.isBlank c = true) (position : Nat) (rest : List Char) :
    scanFrom position (c :: rest) = scanFrom (position + c.utf8Size) rest := by
  rw [scanFrom, if_pos h]

/-- After all that fulfils a condition is dropped comes what does not. -/
theorem head_dropWhile {p : Char → Bool} {c : Char} {cs ds : List Char}
    (h : ds.dropWhile p = c :: cs) : p c = false := by
  have hhead := List.head?_dropWhile_not p ds
  rwa [h, List.head?_cons] at hhead

/-- Letters are the longest identifier. -/
theorem exists_longest_identifier {c : Char} (hc : Text.isAlphabetic c = true)
    (cs : List Char) : ∃ piece rest, c :: cs = piece ++ rest ∧ Longest .identifier piece rest := by
  have hletters : ∀ d ∈ c :: cs.takeWhile Text.isAlphabetic, Text.isAlphabetic d = true :=
    List.forall_mem_cons.mpr ⟨hc, fun d hd => List.mem_takeWhile_imp hd⟩
  refine ⟨c :: cs.takeWhile Text.isAlphabetic, cs.dropWhile Text.isAlphabetic, ?_,
    longest_identifier (List.cons_ne_nil _ _) hletters fun _ _ h => head_dropWhile h⟩
  rw [List.cons_append, List.takeWhile_append_dropWhile]

/-- Digits, with more digits after a point if one follows, are the longest number. -/
theorem exists_longest_number {c : Char} (hc : c.isDigit = true) (cs : List Char) :
    ∃ piece rest, c :: cs = piece ++ rest ∧ Longest .number piece rest := by
  have hdigits : ∀ d ∈ c :: cs.takeWhile Char.isDigit, d.isDigit = true :=
    List.forall_mem_cons.mpr ⟨hc, fun d hd => List.mem_takeWhile_imp hd⟩
  have hcs : c :: cs = (c :: cs.takeWhile Char.isDigit) ++ cs.dropWhile Char.isDigit := by
    rw [List.cons_append, List.takeWhile_append_dropWhile]
  cases hafter : cs.dropWhile Char.isDigit with
  | nil =>
    exact ⟨_, _, hcs, longest_whole (List.cons_ne_nil _ _) hdigits
      (by simp [EndsNumber, hafter])⟩
  | cons d ds =>
    by_cases hd : d = '.'
    · subst hd
      have hds : '.' :: ds = '.' :: ds.takeWhile Char.isDigit ++ ds.dropWhile Char.isDigit := by
        rw [List.cons_append, List.takeWhile_append_dropWhile]
      have hplaces : ∀ d ∈ ds.takeWhile Char.isDigit, d.isDigit = true :=
        fun d hd => List.mem_takeWhile_imp hd
      refine ⟨_, ds.dropWhile Char.isDigit, ?_,
        longest_decimal (List.cons_ne_nil _ _) hdigits hplaces fun _ _ h => head_dropWhile h⟩
      rw [hcs, hafter, List.append_assoc, ← hds]
    · refine ⟨_, _, hcs, longest_whole (List.cons_ne_nil _ _) hdigits ?_⟩
      intro e es he
      obtain ⟨rfl, rfl⟩ := List.cons.inj (hafter.symm.trans he)
      exact ⟨head_dropWhile hafter, hd⟩

/-- **How a text starts**, if it is not empty: with white space, with a word or with a character
that is foreign. -/
theorem start_cases (c : Char) (cs : List Char) :
    Text.isBlank c = true ∨ Foreign c ∨
      ∃ kind piece rest, c :: cs = piece ++ rest ∧ Longest kind piece rest := by
  cases hblank : Text.isBlank c with
  | true => exact .inl rfl
  | false =>
    refine .inr ?_
    cases hsymbol : TokenKind.ofSymbol? c with
    | some kind => exact .inr ⟨kind, [c], cs, rfl, longest_symbol hsymbol cs⟩
    | none =>
      cases hletter : Text.isAlphabetic c with
      | true => exact .inr ⟨.identifier, exists_longest_identifier hletter cs⟩
      | false =>
        cases hdigit : c.isDigit with
        | true => exact .inr ⟨.number, exists_longest_number hdigit cs⟩
        | false => exact .inl ⟨hblank, hsymbol, hletter, hdigit⟩

/-- **What passes over white space and over longest words, and holds of foreign characters and of
the empty text, holds of every text.** -/
theorem text_induction {motive : List Char → Prop} (nil : motive [])
    (blank : ∀ c rest, Text.isBlank c = true → motive rest → motive (c :: rest))
    (word : ∀ kind piece rest, Longest kind piece rest → motive rest → motive (piece ++ rest))
    (foreign : ∀ c rest, Foreign c → motive (c :: rest)) (cs : List Char) : motive cs := by
  induction hlength : cs.length using Nat.strong_induction_on generalizing cs with
  | _ length ih =>
    subst hlength
    cases cs with
    | nil => exact nil
    | cons c cs =>
      rcases start_cases c cs with hblank | hforeign | ⟨kind, piece, rest, heq, hlongest⟩
      · exact blank c cs hblank (ih _ (by simp) cs rfl)
      · exact foreign c cs hforeign
      · rw [heq]
        refine word kind piece rest hlongest (ih _ ?_ rest rfl)
        have hpos := List.length_pos_iff.mpr hlongest.word.ne_nil
        rw [heq, List.length_append]
        omega

/-- **The first foreign character is reported**, and the text before it is cut into tokens. -/
theorem scanFrom_error {position : Nat} {cs : List Char} {error : ParseError}
    (h : scanFrom position cs = .error error) :
    ∃ before c after tokens, cs = before ++ c :: after ∧ Foreign c ∧
      error = .invalidCharacter c (position + byteLength before) ∧
      scanFrom position before = .ok tokens := by
  induction cs using text_induction generalizing position with
  | nil => simp [scanFrom] at h
  | blank c rest hc ih =>
    rw [scanFrom_blank hc] at h
    obtain ⟨before, d, after, tokens, rfl, hd, rfl, hscan⟩ := ih h
    refine ⟨c :: before, d, after, tokens, rfl, hd, ?_, ?_⟩
    · rw [byteLength, Nat.add_assoc]
    · rw [scanFrom_blank hc, hscan]
  | word kind piece rest hlongest ih =>
    rw [scanFrom_longest hlongest, map_eq_error_iff] at h
    obtain ⟨before, d, after, tokens, rfl, hd, rfl, hscan⟩ := ih h
    refine ⟨piece ++ before, d, after, ofChars kind position piece :: tokens,
      (List.append_assoc _ _ _).symm, hd, ?_, ?_⟩
    · rw [byteLength_append, Nat.add_assoc]
    · rw [scanFrom_longest hlongest.of_append, hscan]
      rfl
  | foreign c rest hc =>
    rw [scanFrom_foreign hc] at h
    obtain rfl := Except.error.inj h
    exact ⟨[], c, rest, [], rfl, hc, rfl, by rw [scanFrom]⟩

/-! ### Words that are as long as they can be -/

/-- A piece of a text that is a word, and no longer stretch of the text around it is. -/
structure Maximal (kind : TokenKind) (before piece after : List Char) : Prop where
  word : Word kind piece
  maximal : ∀ b₁ b₂ a₁ a₂, before = b₁ ++ b₂ → after = a₁ ++ a₂ →
    Word kind (b₂ ++ piece ++ a₁) → b₂ = [] ∧ a₁ = []

/-- The one character can stand before the other in a word, and the other can start a word. -/
def Joined (b c : Char) : Prop :=
  Text.isAlphabetic b = true ∧ Text.isAlphabetic c = true ∨
    (b.isDigit = true ∨ b = '.') ∧ c.isDigit = true

/-- No word goes on from what is before to what follows. -/
def Clear (before rest : List Char) : Prop :=
  ∀ b ∈ before.getLast?, ∀ c ∈ rest.head?, ¬ Joined b c

theorem isAlphabetic_of_numeric {c : Char} (h : c.isDigit = true ∨ c = '.') :
    Text.isAlphabetic c = false := by
  rcases h with h | rfl
  · exact Text.isAlphabetic_of_isDigit h
  · rw [← Bool.not_eq_true]
    exact fun h => Text.ne_of_isAlphabetic h (by decide) rfl

theorem clear_nil (rest : List Char) : Clear [] rest := fun _ hb => nomatch hb

theorem clear_of_blank {c : Char} (h : Text.isBlank c = true) (before rest : List Char) :
    Clear (before ++ [c]) rest := by
  intro b hb d _ hjoined
  rw [List.getLast?_append, List.getLast?_singleton, Option.some_or, Option.mem_some] at hb
  subst hb
  rcases hjoined with ⟨hletter, -⟩ | ⟨hdigit | rfl, -⟩
  · rw [Text.isBlank_of_isAlphabetic hletter] at h
    cases h
  · rw [Text.isBlank_of_isDigit hdigit] at h
    cases h
  · exact absurd h (by decide)

theorem Longest.number_end (h : Longest .number piece rest) :
    ∀ c cs, rest = c :: cs → c.isDigit = false := by
  rcases h.word.number_cases with ⟨-, hdigits⟩ | ⟨digits, places, hne, hdigits, hplaces, rfl⟩
  · exact fun c cs heq => (h.whole_end hdigits c cs heq).1
  · exact h.decimal_end hne hdigits hplaces

/-- Only identifiers have letters. -/
theorem Word.eq_identifier {c : Char} (h : Word kind piece) (hc : c ∈ piece)
    (hletter : Text.isAlphabetic c = true) : kind = .identifier := by
  cases h with
  | symbol h =>
    rw [List.mem_singleton.mp hc, Text.isAlphabetic_of_ofSymbol? h] at hletter
    cases hletter
  | identifier => rfl
  | whole hne h =>
    rw [isAlphabetic_of_numeric (.inl (h c hc))] at hletter
    cases hletter
  | decimal hne h hplaces =>
    rw [isAlphabetic_of_numeric ((Word.decimal hne h hplaces).number.1 c hc)] at hletter
    cases hletter

/-- Only numbers have digits and points. -/
theorem Word.eq_number {c : Char} (h : Word kind piece) (hc : c ∈ piece)
    (hnumeric : c.isDigit = true ∨ c = '.') : kind = .number := by
  cases h with
  | symbol h =>
    rw [List.mem_singleton.mp hc] at hnumeric
    rcases hnumeric with hdigit | rfl
    · rw [Text.isDigit_of_ofSymbol? h] at hdigit
      cases hdigit
    · cases h
  | identifier _ h =>
    have hletter := h c hc
    rw [isAlphabetic_of_numeric hnumeric] at hletter
    cases hletter
  | whole => rfl
  | decimal => rfl

/-- A longest word leaves nothing that could go on with it. -/
theorem clear_of_longest (h : Longest kind piece rest) (before : List Char) :
    Clear (before ++ piece) rest := by
  intro b hb c hc hjoined
  obtain ⟨cs, rfl⟩ := List.head?_eq_some_iff.mp hc
  have hb : b ∈ piece := by
    rw [List.getLast?_append, List.getLast?_eq_some_getLast h.word.ne_nil, Option.some_or] at hb
    exact List.mem_of_getLast? (by rwa [List.getLast?_eq_some_getLast h.word.ne_nil])
  rcases hjoined with ⟨hletter, hnext⟩ | ⟨hnumeric, hnext⟩
  · obtain rfl := h.word.eq_identifier hb hletter
    rw [h.endsName c cs rfl] at hnext
    cases hnext
  · obtain rfl := h.word.eq_number hb hnumeric
    rw [h.number_end c cs rfl] at hnext
    cases hnext

/-- What a longer word has before a word could stand before it. -/
theorem Word.joined {b₂ a₁ : List Char} (h : Word kind piece)
    (hword : Word kind (b₂ ++ piece ++ a₁)) : ∀ b ∈ b₂.getLast?, ∀ c ∈ piece.head?, Joined b c := by
  intro b hb c hc
  have hb := List.mem_of_getLast? hb
  cases h with
  | @symbol kind d hd =>
    obtain ⟨e, he⟩ := hword.symbol_eq hd
    have hlength := congrArg List.length he
    have hpos := List.length_pos_of_mem hb
    simp only [List.length_append, List.length_singleton] at hlength
    omega
  | identifier hne h =>
    exact .inl ⟨hword.isAlphabetic b (by simp [hb]), h c (List.mem_of_mem_head? hc)⟩
  | whole hne h =>
    exact .inr ⟨hword.number.1 b (by simp [hb]), h c (List.mem_of_mem_head? hc)⟩
  | decimal hne h hplaces =>
    refine .inr ⟨hword.number.1 b (by simp [hb]), h c (List.mem_of_mem_head? ?_)⟩
    rwa [List.head?_append_of_ne_nil _ hne] at hc

/-- A longest word that nothing before it goes on with is maximal to both sides. -/
theorem maximal_of_longest {before : List Char} (h : Longest kind piece rest)
    (hclear : Clear before (piece ++ rest)) : Maximal kind before piece rest := by
  refine ⟨h.word, fun b₁ b₂ a₁ a₂ hb ha hword => ?_⟩
  have hb₂ : b₂ = [] := by
    by_contra hne
    obtain ⟨c, cs, rfl⟩ := List.exists_cons_of_ne_nil h.word.ne_nil
    have hlast := List.getLast?_eq_some_getLast hne
    refine hclear (b₂.getLast hne) ?_ c rfl (h.word.joined hword _ hlast c rfl)
    rw [hb, List.getLast?_append, hlast]
    rfl
  subst hb₂
  exact ⟨rfl, h.longest a₁ a₂ ha (by simpa using hword)⟩

/-! ### Covered texts -/

theorem byteLength_pos {cs : List Char} (h : cs ≠ []) : 0 < byteLength cs := by
  obtain ⟨c, rest, rfl⟩ := List.exists_cons_of_ne_nil h
  rw [byteLength]
  exact Nat.add_pos_left c.utf8Size_pos _

theorem byteLength_eq (cs : List Char) : byteLength cs = (String.ofList cs).utf8ByteSize := by
  rw [String.utf8ByteSize_ofList]
  induction cs with
  | nil => rfl
  | cons c rest ih => rw [byteLength, ih, String.utf8Len_cons, Nat.add_comm]

/-- The token is a word of the text at its span, and the word is as long as it can be there.
The span counts the bytes of whole characters, so it starts and stops between characters. -/
def StandsIn (t : Token) (text : String) : Prop :=
  ∃ before after : String, text = before ++ t.text ++ after ∧
    t.span = ⟨before.utf8ByteSize, (before ++ t.text).utf8ByteSize⟩ ∧
    Maximal t.kind before.toList t.text.toList after.toList

/-- The tokens are the words of the text, and between them is nothing but white space. -/
structure Covers (tokens : List Token) (text : String) : Prop where
  stands : ∀ t ∈ tokens, t.StandsIn text
  nonempty : ∀ t ∈ tokens, t.span.start < t.span.stop
  apart : tokens.Pairwise fun t u => t.span.stop ≤ u.span.start
  blank : ∀ (before : String) (c : Char) (after : String),
    text = before ++ String.singleton c ++ after →
      (∃ t ∈ tokens, t.span.start ≤ before.utf8ByteSize ∧ before.utf8ByteSize < t.span.stop) ∨
        Text.isBlank c = true

/-- What tokens cover of a text that is left after some characters. -/
structure CoversFrom (before cs : List Char) (tokens : List Token) : Prop where
  stands : ∀ t ∈ tokens, ∃ front piece after, before ++ cs = front ++ piece ++ after ∧
    t = ofChars t.kind (byteLength front) piece ∧ Maximal t.kind front piece after
  start_le : ∀ t ∈ tokens, byteLength before ≤ t.span.start
  apart : tokens.Pairwise fun t u => t.span.stop ≤ u.span.start
  blank : ∀ front c after, cs = front ++ c :: after →
    (∃ t ∈ tokens, t.span.start ≤ byteLength (before ++ front) ∧
      byteLength (before ++ front) < t.span.stop) ∨ Text.isBlank c = true

/-- A character of two lists put together is in the one or in the other. -/
theorem append_eq_append_cons {piece cs front after : List Char} {c : Char}
    (h : piece ++ cs = front ++ c :: after) :
    (∃ more, front = piece ++ more ∧ cs = more ++ c :: after) ∨
      ∃ more, piece = front ++ c :: more := by
  rcases List.append_eq_append_iff.mp h with ⟨more, rfl, htail⟩ | ⟨more, rfl, htail⟩
  · exact .inl ⟨more, rfl, htail⟩
  · cases more with
    | nil => exact .inl ⟨[], by simp, htail.symm⟩
    | cons d more =>
      obtain ⟨rfl, -⟩ := List.cons.inj htail
      exact .inr ⟨more, rfl⟩

theorem CoversFrom.nil (before : List Char) : CoversFrom before [] [] :=
  ⟨List.forall_mem_nil _, List.forall_mem_nil _, List.Pairwise.nil, by simp⟩

theorem CoversFrom.blank_cons {before cs : List Char} {c : Char} {tokens : List Token}
    (hc : Text.isBlank c = true) (h : CoversFrom (before ++ [c]) cs tokens) :
    CoversFrom before (c :: cs) tokens := by
  refine ⟨?_, ?_, h.apart, ?_⟩
  · simpa using h.stands
  · intro t ht
    have hle := h.start_le t ht
    rw [byteLength_append] at hle
    omega
  · intro front d after heq
    cases front with
    | nil =>
      obtain ⟨rfl, -⟩ := List.cons.inj heq
      exact .inr hc
    | cons e front =>
      obtain ⟨rfl, htail⟩ := List.cons.inj heq
      simpa using h.blank front d after htail

theorem CoversFrom.word {before cs : List Char} {tokens : List Token}
    (hlongest : Longest kind piece cs) (hclear : Clear before (piece ++ cs))
    (h : CoversFrom (before ++ piece) cs tokens) :
    CoversFrom before (piece ++ cs) (ofChars kind (byteLength before) piece :: tokens) := by
  have hstart : ∀ t ∈ tokens, byteLength before + byteLength piece ≤ t.span.start := by
    intro t ht
    rw [← byteLength_append]
    exact h.start_le t ht
  refine ⟨?_, ?_, ?_, ?_⟩
  · refine List.forall_mem_cons.mpr ⟨⟨before, piece, cs, by simp, rfl, ?_⟩, ?_⟩
    · exact maximal_of_longest hlongest hclear
    simpa using h.stands
  · refine List.forall_mem_cons.mpr ⟨le_rfl, fun t ht => ?_⟩
    exact (Nat.le_add_right _ _).trans (hstart t ht)
  · exact List.pairwise_cons.mpr ⟨hstart, h.apart⟩
  · intro front c after heq
    rcases append_eq_append_cons heq with ⟨more, rfl, htail⟩ | ⟨more, rfl⟩
    · rw [← List.append_assoc]
      exact (h.blank more c after htail).imp_left fun ⟨t, ht, hin⟩ =>
        ⟨t, List.mem_cons_of_mem _ ht, hin⟩
    · have hpos := byteLength_pos (List.cons_ne_nil c more)
      refine .inl ⟨_, List.mem_cons_self, ?_, ?_⟩
      · show byteLength before ≤ byteLength (before ++ front)
        rw [byteLength_append]
        exact Nat.le_add_right _ _
      · show byteLength (before ++ front) < byteLength before + byteLength (front ++ c :: more)
        rw [byteLength_append, byteLength_append]
        omega

/-- **Scanning covers what is left of a text.** -/
theorem scanFrom_covers {before cs : List Char} (hclear : Clear before cs) {tokens : List Token}
    (h : scanFrom (byteLength before) cs = .ok tokens) : CoversFrom before cs tokens := by
  induction cs using text_induction generalizing before tokens with
  | nil =>
    rw [scanFrom] at h
    obtain rfl := Except.ok.inj h
    exact CoversFrom.nil before
  | blank c rest hc ih =>
    rw [scanFrom_blank hc] at h
    refine CoversFrom.blank_cons hc (ih (clear_of_blank hc before rest) ?_)
    rwa [byteLength_append, byteLength, byteLength, Nat.add_zero]
  | word kind piece rest hlongest ih =>
    rw [scanFrom_longest hlongest, map_eq_ok_iff] at h
    obtain ⟨others, hothers, rfl⟩ := h
    refine CoversFrom.word hlongest hclear (ih (clear_of_longest hlongest before) ?_)
    rwa [byteLength_append]
  | foreign c rest hc =>
    rw [scanFrom_foreign hc] at h
    cases h

/-- What is shown of characters holds of the text they make up. -/
theorem CoversFrom.covers {text : String} {tokens : List Token}
    (h : CoversFrom [] text.toList tokens) : Covers tokens text := by
  have htext : ∀ {front piece after : List Char}, text.toList = front ++ piece ++ after →
      text = String.ofList front ++ String.ofList piece ++ String.ofList after := by
    intro front piece after heq
    rw [← String.ofList_append, ← String.ofList_append, ← heq, String.ofList_toList]
  refine ⟨fun t ht => ?_, fun t ht => ?_, h.apart, fun before c after heq => ?_⟩
  · obtain ⟨front, piece, after, heq, htoken, hmaximal⟩ := h.stands t ht
    have hpiece : t.text = String.ofList piece := by rw [htoken, ofChars]
    refine ⟨String.ofList front, String.ofList after, ?_, ?_, ?_⟩
    · rw [hpiece]
      exact htext heq
    · rw [hpiece, ← String.ofList_append, ← byteLength_eq, ← byteLength_eq, byteLength_append,
        htoken, ofChars]
    · rwa [hpiece, String.toList_ofList, String.toList_ofList, String.toList_ofList]
  · obtain ⟨front, piece, after, -, htoken, hmaximal⟩ := h.stands t ht
    rw [htoken]
    exact Nat.lt_add_of_pos_right (byteLength_pos hmaximal.word.ne_nil)
  · have hsize : before.utf8ByteSize = byteLength ([] ++ before.toList) := by
      rw [List.nil_append, byteLength_eq, String.ofList_toList]
    rw [hsize]
    refine h.blank before.toList c after.toList ?_
    rw [heq]
    simp

/-- **Cutting a text into tokens loses nothing**: either the tokens cover the text, or the first
foreign character is reported with its position, and the text before it is cut into tokens. -/
theorem scan_covers (text : String) :
    (∃ tokens, scan text = .ok tokens ∧ Covers tokens text) ∨
      ∃ (before : String) (c : Char) (after : String),
        text = before ++ String.singleton c ++ after ∧ Foreign c ∧
        scan text = .error (.invalidCharacter c before.utf8ByteSize) ∧
        ∃ tokens, scan before = .ok tokens := by
  cases hscan : scan text with
  | ok tokens =>
    exact .inl ⟨tokens, rfl, (scanFrom_covers (clear_nil _) hscan).covers⟩
  | error error =>
    obtain ⟨before, c, after, tokens, heq, hc, rfl, hbefore⟩ := scanFrom_error hscan
    refine .inr ⟨String.ofList before, c, String.ofList after, ?_, hc, ?_, tokens, ?_⟩
    · rw [String.singleton_eq_ofList, ← String.ofList_append, ← String.ofList_append,
        ← String.ofList_toList (s := text), heq]
      simp
    · rw [byteLength_eq, Nat.zero_add]
    · rw [scan, String.toList_ofList, hbefore]

end PolyAlgebra.Token

