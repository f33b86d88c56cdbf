import Mathlib.Data.List.Forall2
import ScriptLint.Proofs.Token.Partition

/-!
# Text that fades to blanks

A text fades if some of its characters are replaced by blanks, but none that ends a line. A reader
of tokens that has come to the end of a token looks ahead to see that the token does not go on. What
lies ahead may fade: no token goes on with a blank, and where the text has not faded it is what it
was. So a token is cut off the same way before a faded text (`Segment.first?_faded`).

The readers of numerals and punctuators look further ahead than one character, and each part of them
is shown on its own.
-/

namespace ScriptLint

open Text

/-- `Fades c d` says that `d` is `c`, or a blank in the place of `c`, which ends no line. -/
def Fades (c d : Char) : Prop := d = c ∨ d = ' ' ∧ isLineEnd c = false

/-- `Faded text text'` says that `text'` is `text` with blanks in the place of some characters. -/
abbrev Faded : List Char → List Char → Prop := List.Forall₂ Fades

/-- A character that has not become blank is still there. -/
theorem Fades.eq {c d : Char} (h : Fades c d) (hd : d ≠ ' ') : d = c :=
  h.resolve_right fun hfaded => hd hfaded.1

namespace Faded

variable {text text' rest rest' : List Char}

theorem refl (text : List Char) : Faded text text := List.forall₂_same.2 fun _ _ => .inl rfl

/-- Behind an unchanged text. -/
theorem behind (front : List Char) (h : Faded rest rest') :
    Faded (front ++ rest) (front ++ rest') :=
  List.rel_append (refl front) h

/-- The first character of a faded text was there before, unless it is blank. -/
theorem head?_eq (h : Faded text text') {c : Char} (hc : c ≠ ' ') (hhead : text'.head? = some c) :
    text.head? = some c := by
  cases h with
  | nil => cases hhead
  | cons hfades _ =>
    cases hhead
    rw [List.head?_cons, hfades.eq hc]

/-- What still has no blank has not faded. -/
theorem eq_of_notMem (h : Faded text text') (hblank : ' ' ∉ text') : text' = text := by
  induction h with
  | nil => rfl
  | cons hfades _ ih =>
    rw [List.mem_cons, not_or] at hblank
    rw [hfades.eq (Ne.symm hblank.1), ih hblank.2]

/-- A stretch of characters other than blanks ends before a faded text as it did. -/
theorem takeWhile_dropWhile {p : Char → Bool} (hp : p ' ' = false)
    (h : Faded (text.dropWhile p) rest') :
    (text.takeWhile p ++ rest').takeWhile p = text.takeWhile p ∧
      (text.takeWhile p ++ rest').dropWhile p = rest' := by
  induction text with
  | nil =>
    cases h
    exact ⟨rfl, rfl⟩
  | cons c text ih =>
    by_cases hc : p c = true
    · rw [List.dropWhile_cons_of_pos hc] at h
      obtain ⟨htake, hdrop⟩ := ih h
      simp [hc, htake, hdrop]
    · rw [List.dropWhile_cons_of_neg hc] at h
      cases h with
      | @cons _ d _ _ hfades _ =>
        have hd : ¬ p d = true := by
          obtain rfl | ⟨rfl, _⟩ := hfades
          · exact hc
          · simp [hp]
        simp [hc, hd]

end Faded

/-- A blank is no digit. -/
theorem isDigitIn_blank {base : Nat} (hbase : base ≤ 16) : isDigitIn base ' ' = false := by
  have hvalue : digitValue ' ' = 16 := by decide
  rw [isDigitIn, hvalue, decide_eq_false_iff_not]
  omega

theorem isDecimalDigit_blank : isDecimalDigit ' ' = false := by decide

/-- A digit at the start of a faded text was there before. -/
theorem Faded.startsWithDigit {base : Nat} {text text' : List Char} (h : Faded text text')
    (hbase : base ≤ 16) (hdigit : startsWithDigit base text' = true) :
    startsWithDigit base text = true := by
  cases h with
  | nil => exact hdigit
  | cons hfades _ =>
    obtain rfl | ⟨rfl, _⟩ := hfades
    · exact hdigit
    · rw [ScriptLint.startsWithDigit, List.head?_cons, Option.any_some, isDigitIn_blank hbase]
        at hdigit
      cases hdigit

/-- Digits at the start of a text stay there, whatever is put behind them. -/
theorem startsWithDigit_takeWhile {base : Nat} {text : List Char} (rest : List Char)
    (h : startsWithDigit base text = true) :
    startsWithDigit base (text.takeWhile (isDigitIn base) ++ rest) = true := by
  cases text with
  | nil => cases h
  | cons c text =>
    have hc : isDigitIn base c = true := h
    simp [startsWithDigit, hc]

/-! ## Numerals -/

/-- A reader of an optional part of a text is steady if what it reads, written down again before a
faded text, is read again, and if what it refuses is refused when it fades. -/
structure Steady {α : Type} (read : List Char → Option (α × List Char)) (write : α → List Char) :
    Prop where
  append : ∀ {text rest : List Char} {a : α}, read text = some (a, rest) → write a ++ rest = text
  again : ∀ {text rest rest' : List Char} {a : α}, read text = some (a, rest) →
    Faded rest rest' → read (write a ++ rest') = some (a, rest')
  refuses : ∀ {text text' : List Char}, Faded text text' → read text = none → read text' = none

/-- A steady reader reads an optional part before a faded text as it did. -/
theorem Steady.optional {α : Type} {read : List Char → Option (α × List Char)}
    {write : α → List Char} (hread : Steady read write) {text rest' : List Char}
    (h : Faded (((read text).map (·.2)).getD text) rest') :
    ∃ text', text' = (((read text).map (·.1)).map write).getD [] ++ rest' ∧ Faded text text' ∧
      (read text').map (·.1) = (read text).map (·.1) ∧
      ((read text').map (·.2)).getD text' = rest' := by
  cases hfound : read text with
  | none =>
    rw [hfound] at h
    refine ⟨rest', rfl, h, ?_, ?_⟩
    · rw [hread.refuses h hfound]
    · rw [hread.refuses h hfound]
      rfl
  | some found =>
    obtain ⟨a, rest⟩ := found
    rw [hfound] at h
    refine ⟨write a ++ rest', rfl, ?_, ?_, ?_⟩
    · rw [← hread.append hfound]
      exact h.behind (write a)
    · rw [hread.again hfound h]
      rfl
    · rw [hread.again hfound h]
      rfl

namespace Exponent

theorem readSign_of_digit {text : List Char} (h : startsWithDigit 10 text = true) :
    readSign text = (none, text) := by
  cases text with
  | nil => cases h
  | cons c text =>
    have hc : isDigitIn 10 c = true := h
    have hsign : ¬ (c = '+' ∨ c = '-') := by
      rintro (rfl | rfl) <;> exact absurd hc (by decide)
    rw [readSign, if_neg hsign]

/-- A sign is read again before digits. -/
theorem readSign_again (text : List Char) {digits : List Char}
    (h : startsWithDigit 10 digits = true) :
    readSign ((readSign text).1.toList ++ digits) = ((readSign text).1, digits) := by
  cases text with
  | nil => exact readSign_of_digit h
  | cons c text =>
    by_cases hsign : c = '+' ∨ c = '-'
    · simp [readSign, hsign]
    · rw [readSign, if_neg hsign]
      exact readSign_of_digit h

/-- A digit behind a sign was there before the text faded. -/
theorem startsWithDigit_readSign {text text' : List Char} (h : Faded text text')
    (hdigit : startsWithDigit 10 (readSign text').2 = true) :
    startsWithDigit 10 (readSign text).2 = true := by
  cases h with
  | nil => exact hdigit
  | @cons c d text text' hfades htext =>
    by_cases hsign : d = '+' ∨ d = '-'
    · have hd : d = c := hfades.eq (by rintro rfl; exact absurd hsign (by decide))
      rw [readSign, if_pos hsign] at hdigit
      rw [readSign, if_pos (hd ▸ hsign)]
      exact Faded.startsWithDigit htext (by decide) hdigit
    · rw [readSign, if_neg hsign] at hdigit
      have hfirst : startsWithDigit 10 (c :: text) = true :=
        Faded.startsWithDigit (.cons hfades htext) (by decide) hdigit
      rw [readSign_of_digit hfirst]
      exact hfirst

/-- An exponent is read the same before a text that has faded. -/
theorem read?_steady : Steady read? Exponent.text where
  append := read?_append
  again := by
    intro text rest rest' e h hrest
    cases text with
    | nil => cases h
    | cons mark text =>
      rw [read?] at h
      split at h
      · next hmark =>
        simp only at h
        split at h
        · next hdigit =>
          cases h
          obtain ⟨htake, hdrop⟩ := hrest.takeWhile_dropWhile isDecimalDigit_blank
          have hagain : startsWithDigit 10
              ((readSign text).2.takeWhile isDecimalDigit ++ rest') = true :=
            startsWithDigit_takeWhile rest' hdigit
          simp only [Exponent.text, List.cons_append, List.append_assoc, read?, if_pos hmark,
            readSign_again text hagain]
          rw [if_pos hagain, htake, hdrop]
        · cases h
      · cases h
  refuses := by
    intro text text' hfaded h
    cases hfaded with
    | nil => exact h
    | @cons c d text text' hfades htext =>
      rw [read?]
      split
      · next hmark =>
        have hd : d = c := hfades.eq (by rintro rfl; exact absurd hmark (by decide))
        rw [read?, if_pos (hd ▸ hmark)] at h
        simp only at h ⊢
        split at h
        · cases h
        · next hdigit => rw [if_neg fun hdigit' => hdigit (startsWithDigit_readSign htext hdigit')]
      · rfl

end Exponent

namespace Numeral

/-- A fraction is read the same before a text that has faded. -/
theorem readFraction?_steady (afterDigit : Bool) :
    Steady (readFraction? afterDigit) ('.' :: ·) where
  append := readFraction?_append
  again := by
    intro text rest rest' digits h hrest
    cases text with
    | nil => cases h
    | cons point text =>
      rw [readFraction?] at h
      split at h
      · next hpoint =>
        cases h
        obtain ⟨htake, hdrop⟩ := hrest.takeWhile_dropWhile isDecimalDigit_blank
        have hagain : afterDigit = true ∨ startsWithDigit 10
            (text.takeWhile isDecimalDigit ++ rest') = true :=
          hpoint.2.imp_right (startsWithDigit_takeWhile rest')
        rw [List.cons_append, readFraction?, if_pos ⟨rfl, hagain⟩, htake, hdrop]
      · cases h
  refuses := by
    intro text text' hfaded h
    cases hfaded with
    | nil => exact h
    | @cons c d text text' hfades htext =>
      rw [readFraction?]
      split
      · next hpoint =>
        have hd : d = c := hfades.eq (by rw [hpoint.1]; decide)
        have hbefore : c = '.' ∧ (afterDigit = true ∨ startsWithDigit 10 text = true) :=
          ⟨hd ▸ hpoint.1, hpoint.2.imp_right (Faded.startsWithDigit htext (by decide))⟩
        rw [readFraction?, if_pos hbefore] at h
        cases h
      · rfl

/-- The marked bases go up to sixteen. -/
theorem le_of_baseOfMark? {mark : Char} {base : Nat} (h : baseOfMark? mark = some base) :
    base ≤ 16 := by
  unfold baseOfMark? at h
  split at h
  · cases h
    decide
  split at h
  · cases h
    decide
  split at h
  · cases h
    decide
  · cases h

/-- Digits in a marked base are read the same before a text that has faded. -/
theorem readRadix?_steady : Steady readRadix? Numeral.text where
  append := readRadix?_append
  again := by
    intro text rest rest' n h hrest
    match text with
    | [] => cases h
    | [_] => cases h
    | zero :: mark :: text =>
      rw [readRadix?] at h
      split at h
      · next base hbase =>
        split at h
        · next hzero =>
          cases h
          obtain ⟨htake, hdrop⟩ :=
            hrest.takeWhile_dropWhile (isDigitIn_blank (le_of_baseOfMark? hbase))
          simp only [Numeral.text, List.cons_append, readRadix?, hbase, true_and]
          rw [if_pos (startsWithDigit_takeWhile rest' hzero.2), htake, hdrop]
        · cases h
      · cases h
  refuses := by
    intro text text' hfaded h
    cases hfaded with
    | nil => exact h
    | @cons zero zero' text text' hzero htext =>
      cases htext with
      | nil => rfl
      | @cons mark mark' text text' hmark htext =>
        rw [readRadix?]
        split
        · next base hbase =>
          have hmark' : mark' = mark := by
            refine hmark.eq ?_
            rintro rfl
            cases hbase
          split
          · next hstart =>
            have hzero' : zero' = zero := hzero.eq (by rw [hstart.1]; decide)
            have hbefore : zero = '0' ∧ startsWithDigit base text = true :=
              ⟨hzero' ▸ hstart.1,
                Faded.startsWithDigit htext (le_of_baseOfMark? hbase) hstart.2⟩
            rw [readRadix?, ← hmark', hbase] at h
            simp only [if_pos hbefore] at h
            cases h
          · rfl
        · rfl

/-- A decimal numeral is read again before a faded text. -/
theorem readDecimal_faded {text rest' : List Char} (h : Faded (readDecimal text).2 rest') :
    readDecimal ((readDecimal text).1.text ++ rest') = ((readDecimal text).1, rest') := by
  -- from the back to the front: the exponent, the fraction, the digits before it
  obtain ⟨tail, htail, htailFaded, hexponent, hrest⟩ := Exponent.read?_steady.optional h
  obtain ⟨middle, hmiddle, hmiddleFaded, hfraction, hmiddleRest⟩ :=
    (readFraction?_steady _).optional htailFaded
  obtain ⟨hwhole, hafter⟩ := hmiddleFaded.takeWhile_dropWhile isDecimalDigit_blank
  have htext : (readDecimal text).1.text ++ rest' = text.takeWhile isDecimalDigit ++ middle := by
    rw [hmiddle, htail]
    simp only [readDecimal, Numeral.text, List.append_assoc]
  rw [htext]
  simp only [readDecimal]
  rw [hwhole, hafter, hfraction, hmiddleRest, hexponent, hrest]

/-- A numeral is read again before a faded text. -/
theorem read_faded {text rest' : List Char} (h : Faded (read text).2 rest') :
    read ((read text).1.text ++ rest') = ((read text).1, rest') := by
  have hfaded : Faded text ((read text).1.text ++ rest') := by
    have hbehind := h.behind (read text).1.text
    rwa [read_append] at hbehind
  cases hradix : readRadix? text with
  | none =>
    have hread : read text = readDecimal text := by rw [read, hradix, Option.getD_none]
    rw [read, readRadix?_steady.refuses hfaded hradix, Option.getD_none]
    rw [hread] at h ⊢
    exact readDecimal_faded h
  | some found =>
    have hread : read text = found := by rw [read, hradix, Option.getD_some]
    rw [hread] at h ⊢
    rw [read, readRadix?_steady.again hradix h, Option.getD_some]

end Numeral

/-! ## Punctuators -/

namespace Punctuator

/-- No punctuator is spelled with a blank. -/
theorem blank_notMem_spelling (mark : Punctuator) : ' ' ∉ mark.spelling.toList := by
  cases mark <;> decide

/-- No punctuator is spelled by a text that has faded, unless it was before. -/
theorem spelledBy?_faded {text text' : List Char} {count : Nat} (h : Faded text text')
    (hnone : spelledBy? text count = none) : spelledBy? text' count = none := by
  cases hsome : spelledBy? text' count with
  | none => rfl
  | some mark =>
    have hblank : ' ' ∉ text'.take count := by
      have hspelling := (spelledBy?_eq_some hsome).2
      have hmark := mark.blank_notMem_spelling
      rwa [hspelling, String.toList_ofList] at hmark
    have htake := Faded.eq_of_notMem (List.forall₂_take count h) hblank
    rw [spelledBy?, htake, ← h.length_eq] at hsome
    rw [spelledBy?, hsome] at hnone
    cases hnone

/-- The longest punctuator is found again before a faded text. -/
theorem longest?_faded {text rest' : List Char} {mark : Punctuator} {count : Nat}
    (h : longest? text = some (mark, count)) (hrest : Faded (text.drop count) rest') :
    longest? (text.take count ++ rest') = some (mark, count) := by
  obtain ⟨hwindow, hspelled⟩ := longest?_eq_some h
  have hcount : count ≤ text.length := by
    have hlength := (spelledBy?_eq_some hspelled).1
    rw [List.length_take] at hlength
    omega
  have hfaded : Faded (text.take 4) ((text.take count ++ rest').take 4) := by
    have hbehind := hrest.behind (text.take count)
    rw [List.take_append_drop] at hbehind
    exact List.forall₂_take 4 hbehind
  have htake : ((text.take count ++ rest').take 4).take count = (text.take 4).take count := by
    rw [List.take_take, List.take_take, Nat.min_eq_left hwindow]
    exact List.take_left' (by rw [List.length_take]; omega)
  have hagain : spelledBy? ((text.take count ++ rest').take 4) count = some mark := by
    rw [spelledBy?, htake, ← hfaded.length_eq, ← spelledBy?, hspelled]
  -- no longer punctuator is spelled, as there was none before
  unfold longest? at h ⊢
  rw [List.findSome?_eq_some_iff] at h ⊢
  obtain ⟨longer, length, shorter, hlengths, hfound, hnone⟩ := h
  refine ⟨longer, length, shorter, hlengths, ?_, ?_⟩
  · obtain ⟨_, _, heq⟩ := Option.map_eq_some_iff.1 hfound
    cases heq
    rw [hagain]
    rfl
  · intro other hother
    have hbefore := hnone other hother
    rw [Option.map_eq_none_iff] at hbefore ⊢
    exact spelledBy?_faded hfaded hbefore

end Punctuator

/-! ## Strings -/

/-- A string that closes is read again, whatever follows it. -/
theorem Quotation.read_again {quote : Char} {text : List Char} (rest : List Char)
    (h : (read quote text).closed = true) :
    read quote ((read quote text).contents ++ quote :: rest) =
      ⟨(read quote text).contents, true, rest⟩ := by
  fun_induction Quotation.read quote text with
  | case1 => cases h
  | case2 =>
    rw [List.nil_append, Quotation.read.eq_def]
    simp
  | case3 => cases h
  | case4 => cases h
  | case5 => cases h
  | case6 c text hend hquote hback q ih =>
    rw [List.cons_append, List.cons_append, Quotation.read.eq_def]
    simp [hquote, hback, hend, q, ih h]
  | case7 c text hquote hend hback q ih =>
    rw [List.cons_append, Quotation.read.eq_def]
    simp [hquote, hback, hend, q, ih h]

/-! ## Segments -/

/-- What ends a line is blank. -/
theorem isBlank_of_isLineEnd {c : Char} (h : isLineEnd c = true) : isBlank c = true := by
  simp only [isLineEnd, Bool.or_eq_true, beq_iff_eq] at h
  obtain rfl | rfl := h <;> decide

namespace Segment

/-- A segment that is a token of the grammar. -/
def IsWord (s : Segment) : Prop :=
  ∃ kind value, s.content = .token kind value ∧ kind.isTrivia = false

/-- White space and comments are no words. -/
theorem not_isWord_verbatim {kind : TokenKind} (text : List Char) (h : kind.isTrivia = true) :
    ¬ (verbatim kind text).IsWord := by
  rintro ⟨_, _, hcontent, hkind⟩
  cases hcontent
  rw [h] at hkind
  cases hkind

theorem not_isWord_gap (text : List Char) : ¬ IsWord ⟨.gap, text⟩ := by
  rintro ⟨_, _, hcontent, _⟩
  cases hcontent

/-- A string is cut the same before any text, since its quote closes it. -/
theorem quoted_faded {quote : Char} {text more : List Char} (rest' : List Char)
    (hword : (quoted quote text).1.IsWord) (htext : (quoted quote text).1.text = quote :: more) :
    quoted quote (more ++ rest') = ((quoted quote text).1, rest') := by
  unfold quoted at hword htext ⊢
  cases hclosed : (Quotation.read quote text).closed with
  | false =>
    simp only [hclosed] at hword
    exact absurd hword (not_isWord_gap _)
  | true =>
    simp only [hclosed, if_true] at htext ⊢
    obtain rfl := (List.cons.inj htext).2
    rw [List.append_assoc, List.singleton_append]
    simp only [Quotation.read_again rest' hclosed, if_true]

/-- A name is cut the same before a text that has faded. -/
theorem word_faded {text rest' : List Char} (h : Faded (word text).2 rest') :
    word ((word text).1.text ++ rest') = ((word text).1, rest') := by
  obtain ⟨htake, hdrop⟩ := h.takeWhile_dropWhile (show isNamePart ' ' = false by decide)
  simp only [word, htake, hdrop]

/-- A number is cut the same before a text that has faded. -/
theorem numeral_faded {text rest' : List Char} (h : Faded (numeral text).2 rest') :
    numeral ((numeral text).1.text ++ rest') = ((numeral text).1, rest') := by
  simp only [numeral, Numeral.read_faded h]

/-- A punctuator is cut the same before a text that has faded. -/
theorem mark_faded {c : Char} {text more rest' : List Char} (hword : (mark c text).1.IsWord)
    (htext : (mark c text).1.text = c :: more) (h : Faded (mark c text).2 rest') :
    mark c (more ++ rest') = ((mark c text).1, rest') := by
  unfold mark at hword htext h ⊢
  cases hlongest : Punctuator.longest? (c :: text) with
  | none =>
    rw [hlongest] at hword
    exact absurd hword (not_isWord_gap _)
  | some found =>
    obtain ⟨punctuator, count⟩ := found
    rw [hlongest] at htext h
    have hlength : ((c :: text).take count).length = count := by
      obtain ⟨_, hspelled⟩ := Punctuator.longest?_eq_some hlongest
      have hcount := (Punctuator.spelledBy?_eq_some hspelled).1
      rw [List.length_take] at hcount ⊢
      omega
    have hagain := Punctuator.longest?_faded hlongest h
    simp only at htext
    rw [← List.cons_append, ← htext, hagain]
    simp only [List.take_left' hlength, List.drop_left' hlength]

/-- The text of a numeral that starts with a point goes on with digits. -/
theorem numeral_point {text : List Char} (h : startsWithDigit 10 text = true) :
    ∃ more, (numeral ('.' :: text)).1.text = '.' :: (text.takeWhile isDecimalDigit ++ more) := by
  have hradix : Numeral.readRadix? ('.' :: text) = none := by
    cases text with
    | nil => rfl
    | cons c text =>
      rw [Numeral.readRadix?]
      split <;> rfl
  have hpoint : isDecimalDigit '.' = false := by decide
  simp [numeral, Numeral.read, hradix, Numeral.readDecimal, hpoint, Numeral.readFraction?, h,
    Numeral.text]

/-- Whether white space or a comment starts a text. -/
def OpensTrivia (c : Char) (rest : List Char) : Prop :=
  isBlank c = true ∨ c = '/' ∧ (rest.head? = some '/' ∨ rest.head? = some '*')

/-- The first segment of a text that starts with neither white space nor a comment. -/
def cutWord (c : Char) (rest : List Char) : Segment × List Char :=
  if isQuote c then quoted c rest
  else if isNameStart c then word (c :: rest)
  else if isDecimalDigit c ∨ (c = '.' ∧ startsWithDigit 10 rest) then numeral (c :: rest)
  else mark c rest

/-- What starts neither white space nor a comment is cut as a word or a gap. -/
theorem cut_eq_cutWord {c : Char} {rest : List Char} (h : ¬ OpensTrivia c rest) :
    cut c rest = cutWord c rest := by
  rw [OpensTrivia, not_or] at h
  have hline : ¬ isLineEnd c = true := fun hline => h.1 (isBlank_of_isLineEnd hline)
  have hslash : ¬ (c = '/' ∧ rest.head? = some '/') := fun hyes => h.2 ⟨hyes.1, .inl hyes.2⟩
  have hstar : ¬ (c = '/' ∧ rest.head? = some '*') := fun hyes => h.2 ⟨hyes.1, .inr hyes.2⟩
  rw [cut, if_neg hline, if_neg h.1, if_neg hslash, if_neg hstar, cutWord]

/-- Before white space and comments no token of the grammar is cut off. -/
theorem not_isWord_of_opensTrivia {c : Char} {rest : List Char} (h : OpensTrivia c rest) :
    ¬ (cut c rest).1.IsWord := by
  rw [cut]
  split
  · rw [lineBreak]
    split
    · exact not_isWord_verbatim _ rfl
    · exact not_isWord_verbatim _ rfl
  split
  · exact not_isWord_verbatim _ rfl
  split
  · exact not_isWord_verbatim _ rfl
  split
  · rw [blockComment]
    split
    · exact not_isWord_verbatim _ rfl
    · exact not_isWord_gap _
  next hblank hslash hstar =>
  obtain hopen | ⟨hc, hhead | hhead⟩ := h
  · exact absurd hopen hblank
  · exact absurd ⟨hc, hhead⟩ hslash
  · exact absurd ⟨hc, hhead⟩ hstar

/-- A word is cut the same before a text that has faded, one case for each kind of word. -/
theorem cutWord_faded {c : Char} {text more rest' : List Char}
    (hword : (cutWord c text).1.IsWord) (htext : (cutWord c text).1.text = c :: more)
    (hfaded : Faded text (more ++ rest')) (h : Faded (cutWord c text).2 rest') :
    cutWord c (more ++ rest') = ((cutWord c text).1, rest') := by
  unfold cutWord at hword htext h ⊢
  split at hword
  · next hquote =>
    simp only [if_pos hquote] at htext ⊢
    exact quoted_faded rest' hword htext
  next hquote =>
  simp only [if_neg hquote] at htext h ⊢
  split at hword
  · next hname =>
    simp only [if_pos hname] at htext h ⊢
    rw [← List.cons_append, ← htext, word_faded h]
  next hname =>
  simp only [if_neg hname] at htext h ⊢
  split at hword
  · next hdigit =>
    simp only [if_pos hdigit] at htext h ⊢
    have hagain :
        isDecimalDigit c = true ∨ c = '.' ∧ startsWithDigit 10 (more ++ rest') = true := by
      refine hdigit.imp_right ?_
      rintro ⟨rfl, hstart⟩
      obtain ⟨others, hothers⟩ := numeral_point hstart
      obtain rfl := (List.cons.inj (htext.symm.trans hothers)).2
      rw [List.append_assoc]
      exact ⟨rfl, startsWithDigit_takeWhile _ hstart⟩
    rw [if_pos hagain, ← List.cons_append, ← htext, numeral_faded h]
  next hdigit =>
  simp only [if_neg hdigit] at htext h ⊢
  have hno : ¬ (isDecimalDigit c = true ∨ c = '.' ∧ startsWithDigit 10 (more ++ rest') = true) := by
    refine fun hyes => hdigit (hyes.imp_right ?_)
    exact fun hpoint => ⟨hpoint.1, hfaded.startsWithDigit (by decide) hpoint.2⟩
  rw [if_neg hno, mark_faded hword htext h]

/-- A token of the grammar is cut off again before a faded text. -/
theorem first?_faded {text rest rest' : List Char} {s : Segment}
    (hfirst : first? text = some (s, rest)) (hword : s.IsWord) (h : Faded rest rest') :
    first? (s.text ++ rest') = some (s, rest') := by
  have happend := first?_append hfirst
  cases text with
  | nil => cases hfirst
  | cons c text =>
    have hcut : cut c text = (s, rest) := Option.some.inj hfirst
    obtain ⟨more, htext⟩ : ∃ more, s.text = c :: more := by
      have hne : s.text ≠ [] := by
        have hne := cut_text_ne_nil c text
        rwa [hcut] at hne
      obtain ⟨d, more, htext⟩ := List.exists_cons_of_ne_nil hne
      rw [htext] at happend
      exact ⟨more, (List.cons.inj happend).1 ▸ htext⟩
    have hfaded : Faded text (more ++ rest') := by
      rw [htext] at happend
      rw [← (List.cons.inj happend).2]
      exact h.behind more
    have hopens : ¬ OpensTrivia c text := by
      intro hopens
      have hno := not_isWord_of_opensTrivia hopens
      rw [hcut] at hno
      exact hno hword
    have hopens' : ¬ OpensTrivia c (more ++ rest') := by
      refine fun hyes => hopens (hyes.imp_right (And.imp_right ?_))
      exact Or.imp (hfaded.head?_eq (by decide)) (hfaded.head?_eq (by decide))
    rw [cut_eq_cutWord hopens] at hcut
    rw [htext, List.cons_append, first?, cut_eq_cutWord hopens',
      cutWord_faded (by rwa [hcut]) (by rwa [hcut]) hfaded (by rwa [hcut]), hcut]

end Segment

end ScriptLint
