/-
Reading the text of an expression and simplifying gives what simplifying gives.

What comes back is not the expression itself.  A sum of several terms is read as a chain of
additions and subtractions of single terms (`reread`), and the tree above the sums comes back
as it was.  The chain collapses into the sum again because the sum is canonical: the next term
merges with none of those before it and sorts behind them.  So both trees collapse and
simplify alike at every level.
-/
import Mathlib
import PolyAlgebra.Expr.Text
import PolyAlgebra.Proofs.Collapsing
import PolyAlgebra.Proofs.Parsing
import PolyAlgebra.Proofs.TermOrder
import PolyAlgebra.Proofs.TermText

namespace PolyAlgebra

open Grammar Token

variable {α : Type} [Number α]

/-! ### What is read -/

namespace Expr

/-- A term joined to what stands before it, by its sign. -/
def joinTerm (e : Expr α) (t : Term α) : Expr α :=
  if t.coefficient < 0 then .binary .subtract e (ofTerm t.negate) else .binary .add e (ofTerm t)

/-- The expression that the text of a sum is read as. -/
def rereadSum : List (Term α) → Expr α
  | [] => .sum []
  | t :: rest => rest.foldl joinTerm (ofTerm t)

/-- The expression that the text of an expression without calls is read as. -/
def reread : Expr α → Expr α
  | .sum terms => rereadSum terms
  | .binary op left right => .binary op (reread left) (reread right)
  | .call f arguments => .call f arguments

/-- No calls, and at the leaves canonical sums that are not zero, whose numbers are finite and
whose names are made of letters. -/
inductive Printable : Expr α → Prop
  | sum {terms : List (Term α)}
      (canonical : ∃ raw : List (Term α), terms = TermSum.reduce raw)
      (nonzero : terms ≠ [Term.zero])
      (coefficients : ∀ t ∈ terms, Number.isFinite t.coefficient = true)
      (exponents : ∀ t ∈ terms, ∀ name exponent, t.powers.get? name = some exponent →
        Number.isFinite exponent = true)
      (names : ∀ t ∈ terms, ∀ name exponent, t.powers.get? name = some exponent →
        name ≠ "" ∧ ∀ c ∈ name.toList, Text.isAlphabetic c = true) :
      Printable (.sum terms)
  | binary (op : Operator) {left right : Expr α} (hl : Printable left) (hr : Printable right) :
      Printable (.binary op left right)

end Expr

/-- A canonical sum in canonical order, all of whose terms are printable. -/
structure TermSum.Printable (terms : TermSum α) : Prop where
  nonempty : terms ≠ []
  printable : ∀ t ∈ terms, t.Printable
  distinct : terms.Pairwise (fun s t => s.hasPowersOf t = false)
  inOrder : InOrder Term.canonicalOrder terms

variable [PrintedNumber α]

theorem Term.Printable.defined {t : Term α} (h : t.Printable) : t.Defined :=
  ⟨PrintedNumber.defined_of_isFinite _ h.coefficient,
    fun name exponent hget => PrintedNumber.defined_of_isFinite _ (h.exponents name exponent hget)⟩

/-- The leaves of a printable expression are printable sums. -/
theorem TermSum.printable_of_leaf {terms : TermSum α} (h : (Expr.sum terms).Printable) :
    TermSum.Printable terms := by
  cases h with
  | sum canonical nonzero coefficients exponents names =>
    obtain ⟨raw, rfl⟩ := canonical
    have hcanonical := TermSum.reduce_canonical raw
    obtain hzero | ⟨hne, hnonzero⟩ := hcanonical.zeroAlone
    · exact absurd hzero nonzero
    · have hterms : ∀ t ∈ TermSum.reduce raw, t.Printable := fun t ht =>
        ⟨hnonzero t ht, coefficients t ht, exponents t ht, names t ht⟩
      exact ⟨hne, hterms, hcanonical.distinct,
        TermSum.reduce_inOrder fun t ht => (hterms t ht).defined⟩

/-! ### Sums -/

namespace TermSum

omit [PrintedNumber α] in
theorem Printable.append_left {before after : TermSum α} (h : Printable (before ++ after))
    (hne : before ≠ []) : Printable before :=
  ⟨hne, fun t ht => h.printable t (List.mem_append_left _ ht),
    h.distinct.sublist (List.sublist_append_left _ _),
    List.Pairwise.sublist (List.sublist_append_left _ _) h.inOrder⟩

/-- **A canonical sum is its own canonical form.** -/
theorem Printable.reduce_eq {terms : TermSum α} (h : Printable terms) : reduce terms = terms := by
  have hmerge : merge terms = terms :=
    merge_eq_self (fun t ht => (h.printable t ht).nonzero) h.distinct
  rw [reduce, hmerge, orZero_eq_self h.nonempty]
  exact stableSort_eq_self Term.canonicalOrder_swap h.inOrder.isChain

/-- Its text lists its terms in the order they are stored. -/
theorem Printable.text_eq {terms : TermSum α} (h : Printable terms) :
    text terms = sortedText terms := by
  have hfilter : terms.filter (fun t => !t.isZero) = terms :=
    List.filter_eq_self.mpr fun t ht => by simp [(h.printable t ht).nonzero]
  rw [text, hfilter, stableSort_eq_self Term.canonicalOrder_swap h.inOrder.isChain]

end TermSum

namespace Term

omit [PrintedNumber α] in
theorem Printable.singleton {t : Term α} (h : t.Printable) : TermSum.Printable [t] :=
  ⟨by simp, by simpa using h, List.pairwise_singleton _ _, List.pairwise_singleton _ _⟩

/-- Turning the sign of a printable term turns that of its coefficient, which is not zero then
either, and leaves its powers. -/
theorem Printable.negate_eq {t : Term α} (h : t.Printable) :
    t.negate.isZero = false ∧ t.negate.coefficient = t.coefficient * -1 ∧
      t.negate.powers = t.powers := by
  have hne : (t.coefficient * -1 == 0) = false := by
    rw [PrintedNumber.turn_isZero]
    exact h.nonzero
  have heq : t.negate = ⟨t.coefficient * -1, t.powers, t.normalised.of_ne hne⟩ :=
    withCoefficient_of_ne t hne
  rw [heq]
  exact ⟨hne, rfl, rfl⟩

theorem Printable.negate {t : Term α} (h : t.Printable) : t.negate.Printable := by
  obtain ⟨hne, hcoefficient, hpowers⟩ := h.negate_eq
  refine ⟨hne, ?_, ?_, ?_⟩
  · rw [hcoefficient]
    exact PrintedNumber.isFinite_turn _ h.coefficient
  · rw [hpowers]
    exact h.exponents
  · rw [hpowers]
    exact h.names

theorem Printable.negate_negate {t : Term α} (h : t.Printable) : t.negate.negate = t := by
  obtain ⟨-, hcoefficient, hpowers⟩ := h.negate_eq
  obtain ⟨-, hcoefficient', hpowers'⟩ := h.negate.negate_eq
  refine Term.ext ?_ (hpowers'.trans hpowers)
  rw [hcoefficient', hcoefficient, PrintedNumber.turn_turn _ h.coefficient]

end Term

namespace Expr

theorem ofTerm_eq {t : Term α} (h : t.Printable) : ofTerm t = .sum [t] := by
  rw [ofTerm, ofTerms, h.singleton.reduce_eq]

theorem collapse_ofTerm {t : Term α} (h : t.Printable) : (ofTerm t).collapse = .ok [t] := by
  rw [ofTerm_eq h, collapse, h.singleton.reduce_eq]

/-- Joining the next term of a canonical sum to those before it. -/
theorem collapse_joinTerm {e : Expr α} {before : TermSum α} {t : Term α}
    (he : e.collapse = .ok before) (h : TermSum.Printable (before ++ [t])) :
    (joinTerm e t).collapse = .ok (before ++ [t]) := by
  have ht : t.Printable := h.printable t (by simp)
  rw [joinTerm]
  split
  · refine collapse_binary_eq_ok_iff.mpr ⟨by simp, _, _, he, collapse_ofTerm ht.negate, ?_⟩
    show Except.ok (TermSum.reduce (before ++ [t.negate.negate])) = _
    rw [ht.negate_negate, h.reduce_eq]
  · refine collapse_binary_eq_ok_iff.mpr ⟨by simp, _, _, he, collapse_ofTerm ht, ?_⟩
    show Except.ok (TermSum.reduce (before ++ [t])) = _
    rw [h.reduce_eq]

/-- **The chain that a canonical sum is read as collapses into the sum.** -/
theorem collapse_rereadSum {terms : TermSum α} (h : TermSum.Printable terms) :
    (rereadSum terms).collapse = .ok terms := by
  have key : ∀ (rest before : TermSum α) (e : Expr α), TermSum.Printable (before ++ rest) →
      e.collapse = .ok before → (rest.foldl joinTerm e).collapse = .ok (before ++ rest) := by
    intro rest
    induction rest with
    | nil =>
      intro before e _ he
      rw [List.append_nil]
      exact he
    | cons t rest ih =>
      intro before e h he
      have hsplit : before ++ t :: rest = (before ++ [t]) ++ rest := by simp
      rw [hsplit] at h ⊢
      exact ih _ _ h (collapse_joinTerm he (h.append_left (by simp)))
  cases terms with
  | nil => exact absurd rfl h.nonempty
  | cons t rest => exact key rest [t] (ofTerm t) h (collapse_ofTerm (h.printable t (by simp)))

/-- Rereading changes neither what an expression collapses into, or what keeps it from
collapsing, nor what it simplifies to. -/
theorem reread_collapse_simplify {e : Expr α} (h : e.Printable) :
    e.reread.collapse = e.collapse ∧ e.reread.simplify = e.simplify := by
  induction h with
  | @sum terms canonical nonzero coefficients exponents names =>
    have hterms : TermSum.Printable terms :=
      TermSum.printable_of_leaf (.sum canonical nonzero coefficients exponents names)
    have hcollapse := collapse_rereadSum hterms
    refine ⟨?_, ?_⟩
    · rw [reread, hcollapse, collapse, hterms.reduce_eq]
    · rw [reread, simplify_of_collapse hcollapse, simplify, ofTerms, hterms.reduce_eq]
  | @binary op left right _ _ ihl ihr =>
    obtain ⟨hcl, hsl⟩ := ihl
    obtain ⟨hcr, hsr⟩ := ihr
    have hcollapse : (Expr.binary op left.reread right.reread).collapse
        = (Expr.binary op left right).collapse := by
      rw [collapse, collapse, hcl, hcr]
    refine ⟨hcollapse, ?_⟩
    rw [reread, simplify, simplify, hcollapse, hsl, hsr]

end Expr

/-! ### Reading -/

/-- An operator between spaces. -/
theorem Token.Scans.operator (op : Operator) (rest : List Char) :
    Scans (' ' :: (op.symbol.toList ++ [' ']))
      (fun ts => ∃ symbol, ts = [symbol] ∧ symbol.kind.operator? = some op) rest := by
  obtain ⟨c, kind, hsymbol, hkind, hop⟩ : ∃ c kind, op.symbol.toList = [c] ∧
      TokenKind.ofSymbol? c = some kind ∧ kind.operator? = some op := by
    cases op with
    | add => exact ⟨'+', .plus, by decide, by decide, rfl⟩
    | subtract => exact ⟨'-', .minus, by decide, by decide, rfl⟩
    | multiply => exact ⟨'*', .times, by decide, by decide, rfl⟩
    | divide => exact ⟨'/', .divide, by decide, by decide, rfl⟩
    | power => exact ⟨'^', .caret, by decide, by decide, rfl⟩
  have hspace : ∀ more, Scans [' '] (· = []) more := Scans.blank (by decide)
  have hright := (Scans.symbol hkind (' ' :: rest)).append (hspace rest)
    (R := fun ts => ∃ symbol, ts = [symbol] ∧ symbol.kind.operator? = some op) (by
      rintro _ _ ⟨text, s, rfl⟩ rfl
      exact ⟨_, rfl, hop⟩)
  rw [hsymbol]
  exact (hspace _).append hright fun ts us hts hus => by rwa [hts, List.nil_append]

theorem ne_caret_of_operator? {kind : TokenKind} {op : Operator} (h : kind.operator? = some op)
    (hop : op ≠ .power) : kind ≠ .caret := by
  rintro rfl
  exact hop (Option.some.inj h).symm

theorem endsTerm_space (cs : List Char) : EndsTerm (' ' :: cs) :=
  endsTerm_cons (by decide)

/-- A later term of a sum scans to an operator and a literal, which joins the term. -/
theorem scans_laterText {t : Term α} (ht : t.Printable) {rest : List Char}
    (hrest : EndsTerm rest) (e : Expr α) :
    Scans (TermSum.laterText t).toList (fun us => ∀ ts, Derives ExponentsFirst .expression ts e →
      Derives ExponentsFirst .expression (ts ++ us) (Expr.joinTerm e t)) rest := by
  have hjoin : ∀ (op : Operator), op ≠ .power → ∀ u : Term α, u.Printable →
      Scans (' ' :: (op.symbol.toList ++ [' ']) ++ u.text.toList)
        (fun us => ∀ ts, Derives ExponentsFirst .expression ts e →
          Derives ExponentsFirst .expression (ts ++ us) (.binary op e (Expr.ofTerm u))) rest := by
    intro op hop u hu
    refine (Scans.operator op _).append (Term.scans_text hu hrest) ?_
    rintro _ us ⟨symbol, rfl, hsymbol⟩ hus ts hts
    exact .chain hts (.literal hus) hsymbol fun _ =>
      not_startsExponent_of_kind (ne_caret_of_operator? hsymbol hop)
  rw [TermSum.laterText, Expr.joinTerm]
  split
  · have htext : (" - " ++ t.negate.text).toList
        = ' ' :: (Operator.subtract.symbol.toList ++ [' ']) ++ t.negate.text.toList := by
      rw [String.toList_append]
      rfl
    rw [htext]
    exact hjoin .subtract (by simp) _ ht.negate
  · have htext : (" + " ++ t.text).toList
        = ' ' :: (Operator.add.symbol.toList ++ [' ']) ++ t.text.toList := by
      rw [String.toList_append]
      rfl
    rw [htext]
    exact hjoin .add (by simp) _ ht

/-- A printable sum scans to the chain that it is read as. -/
theorem scans_sortedText {terms : TermSum α} (h : TermSum.Printable terms) {rest : List Char}
    (hrest : EndsTerm rest) :
    Scans (TermSum.sortedText terms).toList
      (fun ts => Derives ExponentsFirst .expression ts (Expr.rereadSum terms)) rest := by
  have key : ∀ (later : TermSum α) (text : String) (e : Expr α), (∀ t ∈ later, t.Printable) →
      (∀ rest, EndsTerm rest →
        Scans text.toList (fun ts => Derives ExponentsFirst .expression ts e) rest) →
      ∀ rest, EndsTerm rest →
        Scans (later.foldl (fun text t => text ++ TermSum.laterText t) text).toList
          (fun ts => Derives ExponentsFirst .expression ts (later.foldl Expr.joinTerm e)) rest := by
    intro later
    induction later with
    | nil => intro text e _ h; exact h
    | cons t later ih =>
      intro text e hlater h
      obtain ⟨ht, hlater⟩ := List.forall_mem_cons.mp hlater
      refine ih _ _ hlater fun rest hrest => ?_
      have hspace : EndsTerm ((TermSum.laterText t).toList ++ rest) := by
        rw [TermSum.laterText]
        split <;> rw [String.toList_append] <;> exact endsTerm_space _
      rw [String.toList_append]
      exact (h _ hspace).append (scans_laterText ht hrest e) fun ts us hts hus => hus ts hts
  cases terms with
  | nil => exact absurd rfl h.nonempty
  | cons t later =>
    obtain ⟨ht, hlater⟩ := List.forall_mem_cons.mp h.printable
    exact key later t.text (Expr.ofTerm t) hlater (fun rest hrest =>
      (Term.scans_text ht hrest).mono fun ts hts => .operand (.literal hts)) rest hrest

omit [PrintedNumber α] in
/-- An operand in parentheses scans to tokens for it. -/
theorem Token.Scans.parentheses {text : String} {e : Expr α}
    (h : ∀ rest, EndsTerm rest →
      Scans text.toList (fun ts => Derives ExponentsFirst .expression ts e) rest)
    (rest : List Char) :
    Scans ('(' :: (text.toList ++ [')'])) (fun ts => ∃ us closing s,
      ts = us ++ [⟨.closeParen, closing, s⟩] ∧ Derives ExponentsFirst .operand ts e) rest := by
  have hends : EndsTerm (')' :: rest) := endsTerm_cons (by decide)
  refine (h _ hends).parenthesised.mono fun ts hts => ?_
  obtain ⟨opening, s₁, us, closing, s₂, rfl, hus⟩ := hts
  exact ⟨⟨.openParen, opening, s₁⟩ :: us, closing, s₂, rfl, .parentheses hus⟩

/-- **The text of a printable expression scans to tokens that are read as `reread` says.** -/
theorem Expr.scans_text {e : Expr α} (h : e.Printable) {rest : List Char}
    (hrest : EndsTerm rest) :
    Scans e.text.toList (fun ts => Derives ExponentsFirst .expression ts e.reread) rest := by
  induction h generalizing rest with
  | @sum terms canonical nonzero coefficients exponents names =>
    have hterms : TermSum.Printable terms :=
      TermSum.printable_of_leaf (.sum canonical nonzero coefficients exponents names)
    rw [text, hterms.text_eq]
    exact scans_sortedText hterms hrest
  | @binary op left right _ _ ihl ihr =>
    have htext : (Expr.binary op left right).text.toList
        = '(' :: (left.text.toList ++ [')']) ++ ((' ' :: (op.symbol.toList ++ [' ']))
          ++ '(' :: (right.text.toList ++ [')'])) := by
      rw [text, operationText]
      simp [String.toList_append]
    rw [htext]
    have hright := (Scans.operator op _).append (Scans.parentheses (fun _ => ihr) rest)
      (R := fun ts => ∃ symbol us, ts = symbol :: us ∧ symbol.kind.operator? = some op ∧
        Derives ExponentsFirst .operand us right.reread) (by
        rintro _ us ⟨symbol, rfl, hsymbol⟩ ⟨_, _, _, _, hus⟩
        exact ⟨symbol, us, rfl, hsymbol, hus⟩)
    refine (Scans.parentheses (fun _ => ihl) _).append hright ?_
    intro front back hfront hback
    obtain ⟨ls, closing, s, rfl, hls⟩ := hfront
    obtain ⟨symbol, us, rfl, hsymbol, hus⟩ := hback
    refine .chain hls.operand hus hsymbol fun hends => ?_
    exact absurd hends (not_endsInName_append_singleton ls (by simp))

/-- **Reading the text of a printable expression back.**  It succeeds, and what is read
collapses and simplifies exactly as the expression does. -/
theorem Expr.parse_text {e : Expr α} (h : e.Printable) :
    ∃ p, Expr.parse e.text = .ok p ∧ p.trySimplify = e.trySimplify ∧
      p.simplify = e.simplify := by
  have hend : EndsTerm [] := by
    constructor
    · intro c cs h
      cases h
    · intro c cs h
      cases h
  obtain ⟨ts, hts, hscan⟩ := (Expr.scans_text h hend).scan
  obtain ⟨hcollapse, hsimplify⟩ := reread_collapse_simplify h
  refine ⟨e.reread, (parse_eq_ok_iff_reads hscan e.reread).mpr hts, ?_, hsimplify⟩
  rw [trySimplify, hcollapse, trySimplify]

end PolyAlgebra
