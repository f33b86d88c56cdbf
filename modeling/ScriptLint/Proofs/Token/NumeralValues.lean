import Mathlib.Computability.Language
import Mathlib.Data.Nat.Digits.Defs
import ScriptLint.Proofs.Number.Nearest
import ScriptLint.Proofs.Token.MaximalMunch

/-!
# Numeric tokens have numbers

The number of a numeric token comes from a conversion that could fail, and then it would stand for
no number, or for infinity. A decimal is never refused: what is converted is the text of the token
with a small `e`, and this is a decimal of the grammar `DecimalText.decimal`. Behind a base mark
the digits make up a number that is rounded to the nearest one, and infinity is what they give just
from `2 ^ 64` on.

A numeric token is cut off by reading a numeral at its place (`Segment.numeral_of_cut`), and such
a numeral is proper, so all of this follows from its parts (`Numeral.Proper.converts`).

Main statement: `numerals_convert`.
-/

namespace ScriptLint

/-! ## The texts of decimals -/

namespace DecimalText

open Computability

/-- A decimal digit. -/
def digit : Language Char := {w | ∃ c, '0' ≤ c ∧ c ≤ '9' ∧ w = [c]}

/-- One digit or more. -/
def digits : Language Char := digit * digit∗

/-- The character `c`. -/
def only (c : Char) : Language Char := {[c]}

/-- An exponent with a small mark. -/
def exponent : Language Char := only 'e' * (1 + only '+' + only '-') * digits

/-- Digits with a fraction or without, or only a fraction, and then perhaps an exponent. -/
def decimal : Language Char :=
  digits * (1 + only '.' * digit∗) * (1 + exponent) + only '.' * digits * (1 + exponent)

variable {w : List Char}

theorem mem_only (c : Char) : [c] ∈ only c := Set.mem_singleton _

theorem mem_digit {c : Char} (h : isDecimalDigit c = true) : [c] ∈ digit :=
  have hrange := isDecimalDigit_iff.1 h
  ⟨c, hrange.1, hrange.2, rfl⟩

/-- Digits in any number. -/
theorem mem_kstar_digit (h : ∀ c ∈ w, isDecimalDigit c = true) : w ∈ digit∗ := by
  have hjoin : (w.map fun c => [c]).flatten ∈ digit∗ :=
    Language.join_mem_kstar (List.forall_mem_map.2 fun c hc => mem_digit (h c hc))
  rwa [← List.flatMap_def, List.flatMap_singleton'] at hjoin

/-- At least one digit. -/
theorem mem_digits (hne : w ≠ []) (h : ∀ c ∈ w, isDecimalDigit c = true) : w ∈ digits := by
  obtain ⟨c, rest, rfl⟩ := List.exists_cons_of_ne_nil hne
  obtain ⟨hc, hrest⟩ := List.forall_mem_cons.1 h
  exact Language.append_mem_mul (mem_digit hc) (mem_kstar_digit hrest)

/-- An exponent with a small mark is one of the grammar. -/
theorem mem_exponent {e : Exponent} (h : e.Valid) : e.small.text ∈ exponent := by
  have hsign : e.sign.toList ∈ 1 + only '+' + only '-' := by
    cases hsome : e.sign with
    | none => exact .inl (.inl rfl)
    | some c =>
      obtain rfl | rfl := h.sign c hsome
      · exact .inl (.inr (mem_only '+'))
      · exact .inr (mem_only '-')
  exact Language.append_mem_mul (Language.append_mem_mul (mem_only 'e') hsign)
    (mem_digits h.nonempty h.decimal)

end DecimalText

/-- Writes the mark of an exponent small. -/
def smallMark (c : Char) : Char := if c = 'E' then 'e' else c

/-- A text without a large mark is not changed. -/
theorem map_smallMark {w : List Char} (h : ∀ c ∈ w, c ≠ 'E') : w.map smallMark = w := by
  have hsame : w.map smallMark = w.map id := List.map_congr_left fun c hc => if_neg (h c hc)
  rw [hsame, List.map_id]

theorem ne_of_isDecimalDigit {c : Char} (h : isDecimalDigit c = true) : c ≠ 'E' := by
  rintro rfl
  exact absurd h (by decide)

/-- To make the mark of an exponent small is to do so in its text. -/
theorem Exponent.Valid.text_small {e : Exponent} (h : e.Valid) :
    e.small.text = e.text.map smallMark := by
  have hmark : smallMark e.mark = 'e' := by
    obtain hmark | hmark := h.mark <;> rw [hmark] <;> rfl
  have hsign : ∀ c ∈ e.sign.toList, c ≠ 'E' := by
    intro c hc
    obtain rfl | rfl := h.sign c (Option.mem_toList.1 hc) <;> decide
  rw [text, text, List.map_cons, List.map_append, hmark, map_smallMark hsign,
    map_smallMark fun c hc => ne_of_isDecimalDigit (h.decimal c hc)]
  rfl

/-! ## Proper numerals -/

/-- Digits denote the sum of their values times powers of the base. -/
theorem numberOfDigits_eq (base : Nat) (digits : List Char) :
    numberOfDigits base digits = Nat.ofDigits base (digits.map digitValue).reverse := by
  rw [Nat.ofDigits_eq_foldr, List.foldr_reverse, List.foldl_map, numberOfDigits]
  simp only [Nat.cast_id, Nat.add_comm, Nat.mul_comm]

namespace Numeral

section Decimal

variable {whole : List Char} {fraction : Option (List Char)} {exponent : Option Exponent}

/-- Only the mark of the exponent is written in another way. -/
theorem Proper.text_small (h : (decimal whole fraction exponent).Proper) :
    (decimal whole fraction exponent).small.text =
      (decimal whole fraction exponent).text.map smallMark := by
  obtain ⟨hwhole, hfraction, -, hexponent⟩ := h
  have hpart : ((fraction.map ('.' :: ·)).getD []).map smallMark =
      (fraction.map ('.' :: ·)).getD [] := by
    cases fraction with
    | none => rfl
    | some places =>
      refine map_smallMark (List.forall_mem_cons.2 ⟨by decide, fun c hc => ?_⟩)
      exact ne_of_isDecimalDigit (hfraction places rfl c hc)
  have hend : ((exponent.map Exponent.text).getD []).map smallMark =
      ((exponent.map Exponent.small).map Exponent.text).getD [] := by
    cases exponent with
    | none => rfl
    | some e => exact (hexponent e rfl).text_small.symm
  rw [Numeral.small, text, text, List.map_append, List.map_append, hpart, hend,
    map_smallMark fun c hc => ne_of_isDecimalDigit (hwhole c hc)]

/-- With a small mark a proper decimal is a text of the grammar. -/
theorem Proper.mem_decimal (h : (decimal whole fraction exponent).Proper) :
    (decimal whole fraction exponent).small.text ∈ DecimalText.decimal := by
  obtain ⟨hwhole, hfraction, hsome, hexponent⟩ := h
  have hend : ((exponent.map Exponent.small).map Exponent.text).getD [] ∈
      1 + DecimalText.exponent := by
    cases exponent with
    | none => exact .inl rfl
    | some e => exact .inr (DecimalText.mem_exponent (hexponent e rfl))
  obtain rfl | hne := eq_or_ne whole []
  · -- without digits before the point there are some behind it
    obtain ⟨places, rfl, hplaces⟩ := hsome.resolve_left (not_not.2 rfl)
    have hpart : ['.'] ++ places ∈ DecimalText.only '.' * DecimalText.digits :=
      Language.append_mem_mul (DecimalText.mem_only '.')
        (DecimalText.mem_digits hplaces (hfraction places rfl))
    exact .inr (Language.append_mem_mul hpart hend)
  · refine .inl (Language.append_mem_mul (Language.append_mem_mul ?_ ?_) hend)
    · exact DecimalText.mem_digits hne hwhole
    · cases fraction with
      | none => exact .inl rfl
      | some places =>
        exact .inr (Language.append_mem_mul (DecimalText.mem_only '.')
          (DecimalText.mem_kstar_digit (hfraction places rfl)))

end Decimal

/-- How a numeral that is written `w` is converted. A decimal is converted from `w` with a small
mark, which is a text of the grammar, and this does not fail. Digits behind a base mark, whatever
their number, give the nearest number to what they denote, or infinity if that is too large. -/
def Converts (w : List Char) : Numeral → Prop
  | .decimal whole fraction exponent =>
    (decimal whole fraction exponent).small.text = w.map smallMark ∧
      w.map smallMark ∈ DecimalText.decimal ∧
      Binary64.ofDecimal? (w.map smallMark) = some (decimal whole fraction exponent).convert
  | .radix base mark digits =>
    w = '0' :: mark :: digits ∧ baseOfMark? mark = some base ∧ digits ≠ [] ∧
      (∀ c ∈ digits, isDigitIn base c = true) ∧
      (Nat.ofDigits base (digits.map digitValue).reverse < 2 ^ 64 →
        (radix base mark digits).convert.IsNearest
          (Nat.ofDigits base (digits.map digitValue).reverse : Nat)) ∧
      ((radix base mark digits).convert = .infinity ↔
        2 ^ 64 ≤ Nat.ofDigits base (digits.map digitValue).reverse)

/-- A numeral as the lexer reads it is converted to the number that its text denotes. -/
theorem Proper.converts {n : Numeral} (h : n.Proper) : n.Converts n.text := by
  cases n with
  | decimal whole fraction exponent =>
    have htext := h.text_small
    refine ⟨htext, htext ▸ h.mem_decimal, ?_⟩
    rw [← htext, Numeral.small, Binary64.ofDecimal?_text h.small, h.convert_eq]
    exact congrArg some (value_small (decimal whole fraction exponent))
  | radix base mark digits =>
    refine ⟨rfl, h.1, h.2.1, h.2.2, ?_⟩
    rw [h.convert_eq, ← numberOfDigits_eq]
    by_cases hlt : numberOfDigits base digits < 2 ^ 64
    · have hvalue : (radix base mark digits).value = .ofNat (numberOfDigits base digits) :=
        if_pos hlt
      have hnearest := Binary64.ofNat_isNearest hlt
      rw [← hvalue] at hnearest
      refine ⟨fun _ => hnearest, iff_of_false (fun hinfinite => ?_) (not_le.2 hlt)⟩
      exact absurd hnearest.finite (by rw [hinfinite]; decide)
    · exact ⟨fun hless => absurd hless hlt, iff_of_true (if_neg hlt) (not_lt.1 hlt)⟩

/-- A proper numeral is converted to a number. -/
theorem Proper.isNaN_convert {n : Numeral} (h : n.Proper) : n.convert.isNaN = false := by
  rw [h.convert_eq]
  cases n with
  | decimal whole fraction exponent =>
    exact (Binary64.ofScientific_isRounded _ _).isNaN_eq_false
  | radix base mark digits =>
    rw [value]
    split
    · exact (Binary64.ofQuotient_isRounded _ _).isNaN_eq_false
    · exact Binary64.IsRounded.isNaN_eq_false (.inr rfl)

example : Binary64.nan.isNaN = true := by decide

end Numeral

/-! ## Numeric tokens -/

/-- A numeric token is cut off where a numeral starts, and by reading it. -/
theorem Segment.numeral_of_cut {c : Char} {rest : List Char} {value : TokenValue}
    (h : (cut c rest).1.content = .token .numeric value) :
    (isDecimalDigit c ∨ (c = '.' ∧ startsWithDigit 10 rest)) ∧
      cut c rest = numeral (c :: rest) := by
  rw [cut] at h ⊢
  split_ifs at h ⊢ with hend hblank hline hblock hquote hname hdigit
  · rw [lineBreak] at h
    split at h <;> cases h
  · cases h
  · cases h
  · rw [blockComment] at h
    split at h <;> cases h
  · rw [quoted] at h
    split at h <;> cases h
  · obtain ⟨kind, _, hword, -, hnumeric, -⟩ := classifyWord_taken ((c :: rest).takeWhile isNamePart)
    rw [word, hword] at h
    cases h
    exact absurd rfl hnumeric
  · exact ⟨hdigit, rfl⟩
  · rw [mark] at h
    split at h <;> cases h

/-- A numeric token is a proper numeral that is read at its place. -/
theorem numeral_of_pieces {position : Position} {text : List Char} {before after : List Piece}
    {p : Piece} {t : Token} (h : pieces position text = before ++ p :: after)
    (ht : p.token? = some t) (hkind : t.kind = .numeric) :
    ∃ n : Numeral, n.Proper ∧
      Numeral.read (p.text ++ after.flatMap Piece.text) = (n, after.flatMap Piece.text) ∧
      n.text = p.text ∧ t.value = .number n.convert := by
  obtain ⟨⟨content, w⟩, span, rfl, hfirst⟩ := first?_of_pieces h
  cases content with
  | gap => cases ht
  | token kind value =>
    cases ht
    obtain rfl : kind = .numeric := hkind
    cases htext : (Segment.toPiece ⟨.token .numeric value, w⟩ span).text ++
        after.flatMap Piece.text with
    | nil =>
      rw [htext] at hfirst
      cases hfirst
    | cons c rest =>
      rw [htext] at hfirst
      have hcut := Option.some.inj hfirst
      obtain ⟨hstart, hnumeral⟩ := Segment.numeral_of_cut (congrArg (·.1.content) hcut)
      rw [hnumeral] at hcut
      have hcontent := congrArg (·.1.content) hcut
      refine ⟨_, Numeral.read_proper hstart, Prod.ext rfl (congrArg (·.2) hcut),
        congrArg (·.1.text) hcut, ?_⟩
      exact (SegmentClass.token.inj hcontent).2.symm

/-- Every numeric token of a script is a numeral that is read at its place, and the conversion of
this numeral never fails. -/
theorem numerals_convert (source : String) :
    CutInto source (pieces .origin source.toList) ∧
      ∀ before p after t, pieces .origin source.toList = before ++ p :: after →
        p.token? = some t → t.kind = .numeric →
        ∃ n : Numeral,
          Numeral.read (p.text ++ after.flatMap Piece.text) = (n, after.flatMap Piece.text) ∧
          n.text = p.text ∧ n.Converts p.text ∧
          t.value = .number n.convert ∧ n.convert.isNaN = false := by
  refine ⟨cutInto_pieces source, fun before p after t hpieces ht hkind => ?_⟩
  obtain ⟨n, hproper, hread, htext, hvalue⟩ := numeral_of_pieces hpieces ht hkind
  exact ⟨n, hread, htext, htext ▸ hproper.converts, hvalue, hproper.isNaN_convert⟩

end ScriptLint
