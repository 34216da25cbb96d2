/-
A term is read back from its text.

`PrintedNumber` collects what printing relies on: the text of a finite number stands for that
number, numbers that are equal and not zero are the same, and turning a sign twice changes
nothing.  Under these laws every piece of a term's text scans to tokens that the grammar takes
for that piece.  The coefficients 1 and -1, which are not written, are the ones that the
grammar supplies.
-/
import Mathlib
import PolyAlgebra.Proofs.Canonical
import PolyAlgebra.Proofs.Grammar
import PolyAlgebra.Proofs.Scanning

namespace PolyAlgebra

open Grammar Token

/-- The text of a finite number stands for it, and signs can be turned. -/
class PrintedNumber (α : Type) [Number α] : Prop extends OrderedNumber α where
  defined_of_isFinite : ∀ x : α, Number.isFinite x = true → Number.isUndefined x = false
  eq_of_beq : ∀ x y : α, (x == y) = true → (x == 0) = false → x = y
  zero_add : ∀ x : α, Number.isFinite x = true → (x == 0) = false → 0 + x = x
  neg_isZero : ∀ x : α, (-x == 0) = (x == 0)
  isFinite_turn : ∀ x : α, Number.isFinite x = true → Number.isFinite (x * -1) = true
  turn_isZero : ∀ x : α, (x * -1 == 0) = (x == 0)
  turn_turn : ∀ x : α, Number.isFinite x = true → x * -1 * -1 = x
  readBack : ∀ x : α, Number.isFinite x = true → ∃ negative d,
    Number.numeral x = .finite negative d ∧
      (if negative then -Number.ofDecimal d else Number.ofDecimal d) = x

/-- A term that is not zero, whose numbers are finite and whose names are made of letters. -/
structure Term.Printable {α : Type} [Number α] (t : Term α) : Prop where
  nonzero : t.isZero = false
  coefficient : Number.isFinite t.coefficient = true
  exponents : ∀ name exponent, t.powers.get? name = some exponent →
    Number.isFinite exponent = true
  names : ∀ name exponent, t.powers.get? name = some exponent →
    name ≠ "" ∧ ∀ c ∈ name.toList, Text.isAlphabetic c = true

variable {α : Type} [Number α] [PrintedNumber α]

/-! ### Numbers -/

omit [PrintedNumber α] in
theorem numberOf_text (d : Decimal) :
    Literal.numberOf d.text = (Number.ofDecimal d : α) := by
  rw [Literal.numberOf, Decimal.text, String.toList_ofList, Decimal.ofChars_chars]

theorem Token.Scans.minus (rest : List Char) : Scans ['-'] (fun ts => SignOf ts true) rest := by
  refine (Scans.symbol (by decide : TokenKind.ofSymbol? '-' = some .minus)
    rest).mono fun ts hts => ?_
  obtain ⟨text, s, rfl⟩ := hts
  exact .minus

/-- A sign that may be missing, and a number. -/
theorem Token.Scans.text {x : α} (hx : Number.isFinite x = true) {rest : List Char}
    (hrest : EndsNumber rest) :
    Scans (Number.text x).toList (fun ts => ∃ ss ns negative c, ts = ss ++ ns ∧
      SignOf ss negative ∧ NumberOf ns (some c) ∧ (if negative then -c else c) = x) rest := by
  obtain ⟨negative, d, hnumeral, hvalue⟩ := PrintedNumber.readBack x hx
  have hnumber : Scans d.chars (fun ts => NumberOf ts (some (Number.ofDecimal d : α))) rest := by
    refine (Scans.decimal d hrest).mono fun ts hts => ?_
    obtain ⟨s, rfl⟩ := hts
    exact numberOf_text (α := α) d ▸ .number
  have htext : (Number.text x).toList = (Numeral.sign negative).toList ++ d.chars := by
    rw [Number.text, hnumeral, Numeral.text, String.toList_append, Decimal.text,
      String.toList_ofList]
  have hsign : Scans (Numeral.sign negative).toList (fun ts => SignOf ts negative)
      (d.chars ++ rest) := by
    cases negative with
    | false => exact Scans.nil .absent _
    | true => exact Scans.minus _
  rw [htext]
  exact hsign.append hnumber fun ss ns hss hns => ⟨ss, ns, negative, _, rfl, hss, hns, hvalue⟩

/-! ### Factors -/

theorem Token.Scans.exponent {x : α} (hx : Number.isFinite x = true) {rest : List Char}
    (hrest : EndsNumber rest) :
    Scans ('^' :: (Number.text x).toList) (fun ts => ExponentOf ts x) rest := by
  have hcaret := Scans.symbol (by decide : TokenKind.ofSymbol? '^' = some .caret)
    ((Number.text x).toList ++ rest)
  refine hcaret.append (Scans.text hx hrest) ?_
  intro front back hfront hback
  obtain ⟨caret, s, rfl⟩ := hfront
  obtain ⟨ss, ns, negative, c, rfl, hss, hns, rfl⟩ := hback
  cases hss with
  | absent =>
    cases hns with
    | number => exact .positive
  | minus =>
    cases hns with
    | number => exact .negative

/-- What a text may go on with after a term. -/
structure EndsTerm (rest : List Char) : Prop where
  name : EndsName rest
  number : EndsNumber rest

theorem endsTerm_cons {c : Char} {cs : List Char}
    (h : (Text.isAlphabetic c || c.isDigit || c == '.') = false) : EndsTerm (c :: cs) := by
  simp only [Bool.or_eq_false_iff, beq_eq_false_iff_ne] at h
  obtain ⟨⟨hletter, hdigit⟩, hpoint⟩ := h
  constructor
  · intro d ds heq
    obtain ⟨rfl, -⟩ := List.cons.inj heq
    exact hletter
  · intro d ds heq
    obtain ⟨rfl, -⟩ := List.cons.inj heq
    exact ⟨hdigit, hpoint⟩

theorem Token.Scans.factor {name : String} {x : α} (hx : Number.isFinite x = true)
    (hx0 : (x == 0) = false)
    (hname : name ≠ "" ∧ ∀ c ∈ name.toList, Text.isAlphabetic c = true) {rest : List Char}
    (hrest : EndsTerm rest) :
    Scans (Term.factorText (name, x)).toList
      (fun ts => ∃ s us, ts = ⟨.identifier, name, s⟩ :: us ∧ ExponentOf us x) rest := by
  rw [Term.factorText]
  by_cases h1 : (x == 1) = true
  · rw [if_pos h1, PrintedNumber.eq_of_beq x 1 h1 hx0]
    refine (Scans.name hname.1 hname.2 hrest.name).mono fun ts hts => ?_
    obtain ⟨s, rfl⟩ := hts
    exact ⟨s, [], rfl, .absent⟩
  · have hcaret : EndsName ('^' :: (Number.text x).toList ++ rest) :=
      (endsTerm_cons (by decide)).name
    have htext : (name ++ "^" ++ Number.text x).toList
        = name.toList ++ '^' :: (Number.text x).toList := by
      simp [String.toList_append]
    rw [if_neg h1, htext]
    refine (Scans.name hname.1 hname.2 hcaret).append (Scans.exponent hx hrest.number) ?_
    rintro _ us ⟨s, rfl⟩ hus
    exact ⟨s, us, rfl, hus⟩

/-- Factors in parentheses, one after the other. -/
theorem Token.Scans.factors {es : List (String × α)}
    (hes : ∀ e ∈ es, Number.isFinite e.2 = true ∧ (e.2 == 0) = false ∧ e.1 ≠ "" ∧
      ∀ c ∈ e.1.toList, Text.isAlphabetic c = true) (rest : List Char) :
    Scans (es.flatMap fun e => '(' :: ((Term.factorText e).toList ++ [')']))
      (fun ts => FactorsOf ts es) rest := by
  induction es with
  | nil => exact Scans.nil .nil rest
  | cons e es ih =>
    obtain ⟨⟨hfinite, hne, hname⟩, hrest⟩ := List.forall_mem_cons.mp hes
    rw [List.flatMap_cons]
    generalize hlater : es.flatMap (fun e => '(' :: ((Term.factorText e).toList ++ [')'])) = ds
    rw [hlater] at ih
    have hends : EndsTerm (')' :: (ds ++ rest)) := endsTerm_cons (by decide)
    have hone := (Scans.factor hfinite hne hname hends).parenthesised.mono
      (Q := fun ts => FactorOf ts e) (by
        intro ts hts
        obtain ⟨opening, s₁, us, closing, s₂, rfl, s₃, es, rfl, hexponent⟩ := hts
        exact .parentheses hexponent)
    exact hone.append (ih hrest) fun ts us hts hus => .cons hts hus

namespace Term

omit [PrintedNumber α] in
theorem toList_factorsText (es : List (String × α)) (hes : ∀ e, es ≠ [e]) :
    (factorsText es).toList = es.flatMap fun e => '(' :: ((factorText e).toList ++ [')']) := by
  have key : ∀ (fs : List (String × α)) (text : String),
      (fs.foldl (fun text e => text ++ "(" ++ factorText e ++ ")") text).toList
        = text.toList ++ fs.flatMap fun e => '(' :: ((factorText e).toList ++ [')']) := by
    intro fs
    induction fs with
    | nil => intro text; simp
    | cons f rest ih =>
      intro text
      rw [List.foldl_cons, ih, List.flatMap_cons]
      simp [String.toList_append]
  match es with
  | [] => rfl
  | [e] => exact absurd rfl (hes e)
  | e :: f :: rest =>
    have hfold : factorsText (e :: f :: rest)
        = (e :: f :: rest).foldl (fun text e => text ++ "(" ++ factorText e ++ ")") "" := rfl
    rw [hfold, key]
    rfl

/-- The variables of a term scan to its factors. -/
theorem scans_factorsText {t : Term α} (ht : t.Printable) {rest : List Char}
    (hrest : EndsTerm rest) :
    Scans (factorsText t.powers.entries).toList (fun ts => FactorsOf ts t.powers.entries)
      rest := by
  have hentries : ∀ e ∈ t.powers.entries, Number.isFinite e.2 = true ∧ (e.2 == 0) = false ∧
      e.1 ≠ "" ∧ ∀ c ∈ e.1.toList, Text.isAlphabetic c = true := by
    intro e he
    have hget := (t.powers.mem_entries_iff e.1 e.2).mp he
    exact ⟨ht.exponents _ _ hget, t.normalised.exponents _ _ hget, ht.names _ _ hget⟩
  by_cases hone : ∃ e, t.powers.entries = [e]
  · obtain ⟨e, he⟩ := hone
    rw [he] at hentries ⊢
    obtain ⟨hfinite, hne, hname⟩ := hentries e (List.mem_singleton.mpr rfl)
    refine (Scans.factor hfinite hne hname hrest).mono ?_
    intro ts hts
    obtain ⟨s, us, rfl, hus⟩ := hts
    have hfactor : FactorsOf (⟨.identifier, e.1, s⟩ :: us ++ []) [e] := .cons (.bare hus) .nil
    rwa [List.append_nil] at hfactor
  · rw [toList_factorsText _ fun e he => hone ⟨e, he⟩]
    exact Scans.factors hentries rest

omit [PrintedNumber α] in
/-- They start with a letter or a parenthesis, so a number in front of them ends there. -/
theorem endsNumber_factorsText {t : Term α} (ht : t.Printable) (hne : t.powers.entries ≠ [])
    (rest : List Char) : EndsNumber ((factorsText t.powers.entries).toList ++ rest) := by
  by_cases hone : ∃ e, t.powers.entries = [e]
  · obtain ⟨e, he⟩ := hone
    have hmem : e ∈ t.powers.entries := by
      rw [he]
      exact List.mem_singleton.mpr rfl
    have hget := (t.powers.mem_entries_iff e.1 e.2).mp hmem
    obtain ⟨hname, hletters⟩ := ht.names _ _ hget
    obtain ⟨c, cs, hcs⟩ : ∃ c cs, e.1.toList = c :: cs :=
      List.exists_cons_of_ne_nil fun h => hname (String.toList_eq_nil_iff.mp h)
    have hc : Text.isAlphabetic c = true := hletters c (by rw [hcs]; exact List.mem_cons_self)
    have hhead : ∃ ds, (factorsText t.powers.entries).toList = c :: ds := by
      rw [he, factorsText, factorText]
      split
      · exact ⟨cs, hcs⟩
      · rw [String.toList_append, String.toList_append, hcs]
        exact ⟨_, rfl⟩
    obtain ⟨ds, hds⟩ := hhead
    rw [hds]
    intro d es h
    obtain ⟨rfl, -⟩ := List.cons.inj h
    exact ⟨Text.isDigit_of_isAlphabetic hc, Text.ne_of_isAlphabetic hc (by decide)⟩
  · rw [toList_factorsText _ fun e he => hone ⟨e, he⟩]
    obtain ⟨e, es, hes⟩ := List.exists_cons_of_ne_nil hne
    rw [hes, List.flatMap_cons]
    exact (endsTerm_cons (by decide)).number

/-! ### Terms -/

omit [Number α] [PrintedNumber α] in
/-- Every variable of a term occurs in it once. -/
theorem exponentsOf_entries (m : NameMap α) (name : String) :
    exponentsOf name m.entries = (m.get? name).toList := by
  have key : ∀ l : List (String × α), l.Pairwise (fun a b => a.1 < b.1) →
      exponentsOf name l = (NameMap.findEntry name l).toList := by
    intro l hl
    induction l with
    | nil => rfl
    | cons e rest ih =>
      obtain ⟨hhead, htail⟩ := List.pairwise_cons.mp hl
      have ihrest : (rest.filter (fun f => decide (f.1 = name))).map Prod.snd
          = (NameMap.findEntry name rest).toList := ih htail
      rw [exponentsOf, List.filter_cons, NameMap.findEntry]
      by_cases h : name = e.1
      · have hnone : NameMap.findEntry name rest = none :=
          NameMap.findEntry_of_lt fun a ha => h ▸ hhead a ha
        rw [if_pos h, if_pos (by simp [h]), List.map_cons, ihrest, hnone]
        rfl
      · rw [if_neg h, if_neg (by simp [Ne.symm h]), ihrest]
  exact key m.entries m.rising

theorem collects_entries {t : Term α} (ht : t.Printable) :
    Collects t.powers.entries t.powers := by
  intro name
  rw [exponentsOf_entries]
  cases hget : t.powers.get? name with
  | none => rfl
  | some exponent =>
    have hzero := PrintedNumber.zero_add exponent (ht.exponents _ _ hget)
      (t.normalised.exponents _ _ hget)
    simp only [Option.toList_some, List.foldl_cons, List.foldl_nil, hzero]

/-- What stands before the variables scans to a sign and a number, either of which may be
missing; a missing number is 1. -/
theorem scans_coefficientText {t : Term α} (ht : t.Printable) {rest : List Char}
    (hrest : EndsNumber rest) :
    Scans (coefficientText t.coefficient).toList (fun ts => ∃ ss ns negative number,
      ts = ss ++ ns ∧ SignOf ss negative ∧ NumberOf ns number ∧
        (if negative then -number.getD 1 else number.getD 1) = t.coefficient) rest := by
  rw [coefficientText]
  by_cases hminus : (t.coefficient == -1) = true
  · rw [if_pos hminus]
    refine (Scans.minus rest).mono fun ts hts => ?_
    have hcoefficient := PrintedNumber.eq_of_beq _ _ hminus ht.nonzero
    exact ⟨ts, [], true, none, by simp, hts, .absent, hcoefficient.symm⟩
  · rw [if_neg hminus]
    by_cases hplus : (t.coefficient == 1) = true
    · rw [if_pos hplus]
      have hcoefficient := PrintedNumber.eq_of_beq _ _ hplus ht.nonzero
      exact Scans.nil ⟨[], [], false, none, rfl, .absent, .absent, hcoefficient.symm⟩ rest
    · rw [if_neg hplus]
      refine (Scans.text ht.coefficient hrest).mono ?_
      intro ts hts
      obtain ⟨ss, ns, negative, c, rfl, hss, hns, hc⟩ := hts
      exact ⟨ss, ns, negative, some c, rfl, hss, hns, hc⟩

/-- **A term scans to a literal that stands for it.** -/
theorem scans_text {t : Term α} (ht : t.Printable) {rest : List Char} (hrest : EndsTerm rest) :
    Scans t.text.toList (fun ts => LiteralOf ts t) rest := by
  have hvalue := t.normalise_self
  by_cases hconstant : t.isConstant = true
  · have hempty : t.powers = NameMap.empty := (NameMap.isEmpty_iff _).mp hconstant
    have hcollects : Collects [] t.powers := by
      rw [hempty]
      exact collects_foldl []
    rw [text, if_pos hconstant]
    refine (Scans.text ht.coefficient hrest.number).mono ?_
    intro ts hts
    obtain ⟨ss, ns, negative, c, rfl, hss, hns, hc⟩ := hts
    have hne : (c == 0) = false := by
      rw [← ht.nonzero, isZero, ← hc]
      split
      · rw [PrintedNumber.neg_isZero]
      · rfl
    have hliteral := LiteralOf.intro hss hns .nil (fun _ => ⟨c, rfl, hne⟩) hcollects
    rw [List.append_nil, Option.getD_some, hc, hvalue] at hliteral
    exact hliteral
  · have hne : t.powers.entries ≠ [] := by
      intro hnil
      exact hconstant (by rw [isConstant, NameMap.isEmpty, hnil]; rfl)
    have hends := endsNumber_factorsText ht hne rest
    rw [text, if_neg hconstant, String.toList_append]
    refine (scans_coefficientText ht hends).append (scans_factorsText ht hrest) ?_
    rintro _ fs ⟨ss, ns, negative, number, rfl, hss, hns, hc⟩ hfs
    have hliteral :=
      LiteralOf.intro hss hns hfs (fun h => absurd h hne) (collects_entries ht)
    rw [hc, hvalue] at hliteral
    rwa [List.append_assoc]

end Term

end PolyAlgebra
