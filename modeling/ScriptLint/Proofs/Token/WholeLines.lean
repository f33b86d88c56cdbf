import ScriptLint.Proofs.Grammar.LineBreaks
import ScriptLint.Proofs.Token.Blanked

/-!
# Line by line

A script can be cut into segments line by line. No reader of a segment looks past a line feed,
except for the end of a block comment: a reader of a text that has a line feed does the same
whatever is put behind that text (`Segment.cut_append_right`). So the pieces of whole lines do not
change if more lines follow, and the pieces of these are what they are alone, some lines further
down (`lexing_by_lines`).
-/

namespace ScriptLint

open Text

/-! ## Readers that stop at a line feed -/

section Stretches

variable {text : List Char} {p : Char → Bool}

/-- A line feed ends every stretch of other characters. -/
theorem lineFeed_mem_dropWhile (h : '\n' ∈ text) (hp : p '\n' = false) :
    '\n' ∈ text.dropWhile p := by
  rw [← List.takeWhile_append_dropWhile (p := p) (l := text), List.mem_append] at h
  refine h.resolve_left fun hmem => ?_
  have htrue := List.all_eq_true.1 (List.all_takeWhile (l := text) (p := p)) _ hmem
  rw [hp] at htrue
  cases htrue

/-- What stops at a line feed takes nothing of what follows it. -/
theorem takeWhile_append_of_lineFeed (h : '\n' ∈ text) (hp : p '\n' = false) (rest : List Char) :
    (text ++ rest).takeWhile p = text.takeWhile p := by
  induction text with
  | nil => cases h
  | cons c text ih =>
    rw [List.cons_append, List.takeWhile_cons, List.takeWhile_cons]
    split
    · next hc =>
      have hne : '\n' ≠ c := by
        rintro rfl
        rw [hp] at hc
        cases hc
      rw [ih (List.mem_of_ne_of_mem hne h)]
    · rfl

/-- What stops at a line feed leaves all of what follows it. -/
theorem dropWhile_append_of_lineFeed (h : '\n' ∈ text) (hp : p '\n' = false) (rest : List Char) :
    (text ++ rest).dropWhile p = text.dropWhile p ++ rest := by
  have hne : (text.dropWhile p).isEmpty = false :=
    List.isEmpty_eq_false_iff.2 (List.ne_nil_of_mem (lineFeed_mem_dropWhile h hp))
  rw [List.dropWhile_append, hne, if_neg Bool.false_ne_true]

theorem head?_append_of_lineFeed (h : '\n' ∈ text) (rest : List Char) :
    (text ++ rest).head? = text.head? :=
  List.head?_append_of_ne_nil _ (List.ne_nil_of_mem h)

/-- The first character decides, and there is one. -/
theorem startsWithDigit_append (h : '\n' ∈ text) (base : Nat) (rest : List Char) :
    startsWithDigit base (text ++ rest) = startsWithDigit base text := by
  rw [startsWithDigit, startsWithDigit, head?_append_of_lineFeed h]

end Stretches

/-- A line feed is no digit. -/
theorem isDigitIn_lineFeed {base : Nat} (hbase : base ≤ 16) : isDigitIn base '\n' = false := by
  have hvalue : digitValue '\n' = 16 := by decide
  rw [isDigitIn, hvalue, decide_eq_false_iff_not]
  omega

theorem isDecimalDigit_lineFeed : isDecimalDigit '\n' = false := by decide

/-- A text behind what was read, with more text behind it. -/
def extendRest {α : Type} (rest : List Char) (found : α × List Char) : α × List Char :=
  (found.1, found.2 ++ rest)

/-- A reader of an optional part of a text is local to a line if it reads the same whatever follows
a text with a line feed, and never takes the line feed. -/
def LineLocal {α : Type} (read : List Char → Option (α × List Char)) : Prop :=
  ∀ text, '\n' ∈ text → (∀ rest, read (text ++ rest) = (read text).map (extendRest rest)) ∧
    ∀ found ∈ read text, '\n' ∈ found.2

namespace LineLocal

variable {α : Type} {read : List Char → Option (α × List Char)} {text : List Char}

/-- The text behind an optional part still has the line feed. -/
theorem lineFeed_mem (h : LineLocal read) (hfeed : '\n' ∈ text) :
    '\n' ∈ ((read text).map (·.2)).getD text := by
  cases hread : read text with
  | none => exact hfeed
  | some found => exact (h text hfeed).2 found hread

/-- A reader that stops at a line feed gives the same, whatever follows. -/
theorem map_fst (h : LineLocal read) (hfeed : '\n' ∈ text) (rest : List Char) :
    (read (text ++ rest)).map (·.1) = (read text).map (·.1) := by
  rw [(h text hfeed).1]
  cases read text <;> rfl

/-- A reader that stops at a line feed leaves what follows, also if it reads nothing. -/
theorem getD_snd (h : LineLocal read) (hfeed : '\n' ∈ text) (rest : List Char) :
    ((read (text ++ rest)).map (·.2)).getD (text ++ rest) =
      ((read text).map (·.2)).getD text ++ rest := by
  rw [(h text hfeed).1]
  cases read text <;> rfl

end LineLocal

/-! ## Numerals -/

namespace Exponent

/-- A sign is read on the line. -/
theorem readSign_lineLocal {text : List Char} (h : '\n' ∈ text) :
    (∀ rest, readSign (text ++ rest) = extendRest rest (readSign text)) ∧
      '\n' ∈ (readSign text).2 := by
  cases text with
  | nil => cases h
  | cons c text =>
    simp only [List.cons_append, readSign]
    by_cases hsign : c = '+' ∨ c = '-'
    · have hc : '\n' ≠ c := by
        rintro rfl
        exact absurd hsign (by decide)
      simp only [if_pos hsign]
      exact ⟨fun rest => rfl, List.mem_of_ne_of_mem hc h⟩
    · simp only [if_neg hsign]
      exact ⟨fun rest => rfl, h⟩

/-- An exponent ends before a line feed. -/
theorem read?_lineLocal : LineLocal read? := by
  intro text h
  cases text with
  | nil => cases h
  | cons mark text =>
    simp only [List.cons_append, read?]
    by_cases hmark : mark = 'e' ∨ mark = 'E'
    · have hc : '\n' ≠ mark := by
        rintro rfl
        exact absurd hmark (by decide)
      obtain ⟨hsign, hfeed⟩ := readSign_lineLocal (List.mem_of_ne_of_mem hc h)
      simp only [if_pos hmark, hsign, extendRest, startsWithDigit_append hfeed,
        takeWhile_append_of_lineFeed hfeed isDecimalDigit_lineFeed,
        dropWhile_append_of_lineFeed hfeed isDecimalDigit_lineFeed]
      split
      · refine ⟨fun rest => rfl, ?_⟩
        rintro _ ⟨⟩
        exact lineFeed_mem_dropWhile hfeed isDecimalDigit_lineFeed
      · exact ⟨fun rest => rfl, by rintro _ ⟨⟩⟩
    · simp only [if_neg hmark]
      exact ⟨fun rest => rfl, by rintro _ ⟨⟩⟩

end Exponent

namespace Numeral

/-- A fraction ends before a line feed. -/
theorem readFraction?_lineLocal (afterDigit : Bool) : LineLocal (readFraction? afterDigit) := by
  intro text h
  cases text with
  | nil => cases h
  | cons point text =>
    simp only [List.cons_append, readFraction?]
    by_cases hpoint : point = '.'
    · have hc : '\n' ≠ point := by
        rintro rfl
        exact absurd hpoint (by decide)
      have hfeed := List.mem_of_ne_of_mem hc h
      simp only [startsWithDigit_append hfeed,
        takeWhile_append_of_lineFeed hfeed isDecimalDigit_lineFeed,
        dropWhile_append_of_lineFeed hfeed isDecimalDigit_lineFeed]
      split
      · refine ⟨fun rest => rfl, ?_⟩
        rintro _ ⟨⟩
        exact lineFeed_mem_dropWhile hfeed isDecimalDigit_lineFeed
      · exact ⟨fun rest => rfl, by rintro _ ⟨⟩⟩
    · simp only [hpoint, false_and, if_false]
      exact ⟨fun rest => rfl, by rintro _ ⟨⟩⟩

/-- Digits in a marked base end before a line feed. -/
theorem readRadix?_lineLocal : LineLocal readRadix? := by
  intro text h
  obtain _ | ⟨zero, _ | ⟨mark, text⟩⟩ := text
  · cases h
  · -- a line feed alone has no base mark behind it, and no zero before one
    obtain rfl := List.mem_singleton.1 h
    refine ⟨fun rest => ?_, by rintro _ ⟨⟩⟩
    cases rest with
    | nil => rfl
    | cons mark rest =>
      simp only [List.cons_append, List.nil_append, readRadix?]
      split <;> rfl
  · simp only [List.cons_append, readRadix?]
    split
    · next base hbase =>
      by_cases hzero : zero = '0'
      · have hmark : '\n' ≠ mark := by
          rintro rfl
          cases hbase
        have hfeed : '\n' ∈ text :=
          List.mem_of_ne_of_mem hmark (List.mem_of_ne_of_mem (hzero ▸ by decide) h)
        have hdigit := isDigitIn_lineFeed (le_of_baseOfMark? hbase)
        simp only [startsWithDigit_append hfeed, takeWhile_append_of_lineFeed hfeed hdigit,
          dropWhile_append_of_lineFeed hfeed hdigit]
        split
        · refine ⟨fun rest => rfl, ?_⟩
          rintro _ ⟨⟩
          exact lineFeed_mem_dropWhile hfeed hdigit
        · exact ⟨fun rest => rfl, by rintro _ ⟨⟩⟩
      · simp only [hzero, false_and, if_false]
        exact ⟨fun rest => rfl, by rintro _ ⟨⟩⟩
    · exact ⟨fun rest => rfl, by rintro _ ⟨⟩⟩

/-- A decimal numeral is read on the line. -/
theorem readDecimal_append_right {text : List Char} (h : '\n' ∈ text) (rest : List Char) :
    readDecimal (text ++ rest) = extendRest rest (readDecimal text) := by
  have hwhole := lineFeed_mem_dropWhile h isDecimalDigit_lineFeed
  have hfraction := readFraction?_lineLocal (!(text.takeWhile isDecimalDigit).isEmpty)
  have hafter := hfraction.lineFeed_mem hwhole
  simp only [readDecimal, extendRest, takeWhile_append_of_lineFeed h isDecimalDigit_lineFeed,
    dropWhile_append_of_lineFeed h isDecimalDigit_lineFeed, hfraction.map_fst hwhole,
    hfraction.getD_snd hwhole, Exponent.read?_lineLocal.map_fst hafter,
    Exponent.read?_lineLocal.getD_snd hafter]

/-- A numeral ends before a line feed. -/
theorem read_append_right {text : List Char} (h : '\n' ∈ text) (rest : List Char) :
    read (text ++ rest) = extendRest rest (read text) := by
  rw [read, read, (readRadix?_lineLocal text h).1, readDecimal_append_right h]
  cases readRadix? text <;> rfl

end Numeral

/-! ## Punctuators, comments and strings -/

namespace Punctuator

/-- No punctuator is spelled with a line feed. -/
theorem lineFeed_notMem_spelling (mark : Punctuator) : '\n' ∉ mark.spelling.toList := by
  cases mark <;> decide

/-- No punctuator reaches over a line feed, so what is behind a text does not help to spell one. -/
theorem spelledBy?_append_right {text : List Char} (h : '\n' ∈ text) (rest : List Char)
    (count : Nat) : spelledBy? (text ++ rest) count = spelledBy? text count := by
  by_cases hcount : count ≤ text.length
  · have hmore : count ≤ (text ++ rest).length := by
      rw [List.length_append]
      omega
    rw [spelledBy?, spelledBy?, if_pos hcount, if_pos hmore, List.take_append_of_le_length hcount]
  · have hnone : spelledBy? text count = none := by rw [spelledBy?, if_neg hcount]
    rw [hnone, Option.eq_none_iff_forall_ne_some]
    intro mark hmark
    have hspelling := (spelledBy?_eq_some hmark).2
    have htext : '\n' ∈ (text ++ rest).take count := by
      rw [List.take_append, List.take_of_length_le (by omega)]
      exact List.mem_append_left _ h
    refine mark.lineFeed_notMem_spelling ?_
    rwa [hspelling, String.toList_ofList]

/-- Only the first characters matter for a punctuator of their number. -/
theorem spelledBy?_take {text : List Char} {count window : Nat} (h : count ≤ window) :
    spelledBy? (text.take window) count = spelledBy? text count := by
  rw [spelledBy?, spelledBy?, List.length_take, List.take_take, Nat.min_eq_left h]
  by_cases hcount : count ≤ text.length
  · rw [if_pos hcount, if_pos (by omega)]
  · rw [if_neg hcount, if_neg (by omega)]

/-- The longest punctuator that a text spells does not depend on the window that is looked at. -/
theorem longest?_eq (text : List Char) :
    longest? text = [4, 3, 2, 1].findSome? fun count =>
      (spelledBy? text count).map fun p => (p, count) := by
  simp only [longest?, List.findSome?_cons, List.findSome?_nil, spelledBy?_take,
    Nat.le_refl, Nat.reduceLeDiff]

/-- No punctuator reaches over a line feed. -/
theorem longest?_append_right {text : List Char} (h : '\n' ∈ text) (rest : List Char) :
    longest? (text ++ rest) = longest? text := by
  simp only [longest?_eq, spelledBy?_append_right h]

end Punctuator

/-- A comment that closes does so before whatever is put behind it. -/
theorem closeComment?_append_right {text body after : List Char}
    (h : closeComment? text = some (body, after)) (rest : List Char) :
    closeComment? (text ++ rest) = some (body, after ++ rest) := by
  induction text generalizing body after with
  | nil => cases h
  | cons c text ih =>
    rw [closeComment?] at h
    rw [List.cons_append, closeComment?]
    split at h
    · next hend =>
      cases h
      obtain ⟨tail, rfl⟩ := List.head?_eq_some_iff.1 hend.2
      rw [if_pos ⟨hend.1, rfl⟩]
      rfl
    · next hend =>
      obtain ⟨⟨inner, tail⟩, hinner, heq⟩ := Option.map_eq_some_iff.1 h
      cases heq
      -- the text goes on, since the comment closes in it
      have hne : text ≠ [] := by
        rintro rfl
        cases hinner
      rw [List.head?_append_of_ne_nil _ hne, if_neg hend, ih hinner]
      rfl

/-- A string is read on its line. -/
theorem Quotation.read_append_right {quote : Char} {text : List Char} (h : '\n' ∈ text)
    (rest : List Char) :
    read quote (text ++ rest) =
      { read quote text with rest := (read quote text).rest ++ rest } := by
  have hother {c : Char} {tail : List Char} (hc : ¬ isLineEnd c = true)
      (hfeed : '\n' ∈ c :: tail) : '\n' ∈ tail :=
    List.mem_of_ne_of_mem (by rintro rfl; exact hc rfl) hfeed
  fun_induction Quotation.read quote text with
  | case1 => cases h
  | case2 tail =>
    rw [List.cons_append, Quotation.read.eq_def]
    simp
  | case3 c tail hquote hend =>
    rw [List.cons_append, Quotation.read.eq_def]
    simp [hquote, hend]
  | case4 => exact absurd h (by decide)
  | case5 escaped tail hescaped hquote hend =>
    rw [List.cons_append, List.cons_append, Quotation.read.eq_def]
    simp [hquote, hend, hescaped]
  | case6 escaped tail hescaped q hquote hend ih =>
    rw [List.cons_append, List.cons_append, Quotation.read.eq_def]
    simp [hquote, hend, hescaped, q, ih (hother hescaped (hother hend h))]
  | case7 c tail hquote hend hback q ih =>
    rw [List.cons_append, Quotation.read.eq_def]
    simp [hquote, hback, hend, q, ih (hother hend h)]

/-! ## Segments -/

namespace Segment

/-- A line break that starts in a whole line ends in it. -/
theorem lineBreak_append_right {c : Char} {text : List Char} (h : '\n' ∈ c :: text)
    (rest : List Char) : lineBreak c (text ++ rest) = extendRest rest (lineBreak c text) := by
  by_cases hc : c = '\r'
  · have htext : '\n' ∈ text := List.mem_of_ne_of_mem (hc ▸ by decide) h
    obtain ⟨d, tail, rfl⟩ := List.exists_cons_of_ne_nil (List.ne_nil_of_mem htext)
    simp only [lineBreak, List.cons_append, List.head?_cons, List.drop_succ_cons, List.drop_zero]
    split <;> rfl
  · simp only [lineBreak, hc, false_and, if_false]
    rfl

/-- A line comment ends before the line feed. -/
theorem lineComment_append_right {text : List Char} (h : '\n' ∈ text) (rest : List Char) :
    lineComment (text ++ rest) = extendRest rest (lineComment text) := by
  have hp : (!isLineEnd '\n') = false := rfl
  rw [lineComment, lineComment, takeWhile_append_of_lineFeed h hp,
    dropWhile_append_of_lineFeed h hp]
  rfl

/-- Blanks within a line end before the line feed. -/
theorem blanks_append_right {text : List Char} (h : '\n' ∈ text) (rest : List Char) :
    blanks (text ++ rest) = extendRest rest (blanks text) := by
  have hp : isInlineBlank '\n' = false := rfl
  rw [blanks, blanks, takeWhile_append_of_lineFeed h hp, dropWhile_append_of_lineFeed h hp]
  rfl

/-- A name ends before the line feed. -/
theorem word_append_right {text : List Char} (h : '\n' ∈ text) (rest : List Char) :
    word (text ++ rest) = extendRest rest (word text) := by
  have hp : isNamePart '\n' = false := rfl
  simp only [word, takeWhile_append_of_lineFeed h hp, dropWhile_append_of_lineFeed h hp]
  rfl

/-- A number ends before the line feed. -/
theorem numeral_append_right {text : List Char} (h : '\n' ∈ text) (rest : List Char) :
    numeral (text ++ rest) = extendRest rest (numeral text) := by
  rw [numeral, numeral, Numeral.read_append_right h]
  rfl

/-- A string ends before the line feed or with it, closed or not. -/
theorem quoted_append_right (quote : Char) {text : List Char} (h : '\n' ∈ text)
    (rest : List Char) : quoted quote (text ++ rest) = extendRest rest (quoted quote text) := by
  simp only [quoted, Quotation.read_append_right h]
  split <;> rfl

/-- A punctuator ends before the line feed. -/
theorem mark_append_right {c : Char} {text : List Char} (h : '\n' ∈ text) (rest : List Char) :
    mark c (text ++ rest) = extendRest rest (mark c text) := by
  have hp : (!startsToken '\n') = false := by decide
  rw [mark, mark, ← List.cons_append, Punctuator.longest?_append_right (List.mem_cons_of_mem c h)]
  split
  · next p count hlongest =>
    obtain ⟨_, hspelled⟩ := Punctuator.longest?_eq_some hlongest
    have hcount : count ≤ (c :: text).length := by
      have hwindow := (Punctuator.spelledBy?_eq_some hspelled).1
      rw [List.length_take] at hwindow
      omega
    rw [List.take_append_of_le_length hcount, List.drop_append_of_le_length hcount]
    rfl
  · rw [takeWhile_append_of_lineFeed h hp, dropWhile_append_of_lineFeed h hp]
    rfl

/-- A block comment that does not close. -/
def IsOpenComment (s : Segment) : Prop := s.content = .gap ∧ ['/', '*'] <+: s.text

/-- A comment that is closed is closed whatever follows. -/
theorem blockComment_append_right {text : List Char} (h : ¬ (blockComment text).1.IsOpenComment)
    (rest : List Char) : blockComment (text ++ rest) = extendRest rest (blockComment text) := by
  unfold blockComment at h ⊢
  cases hclose : closeComment? text with
  | none =>
    rw [hclose] at h
    exact absurd ⟨rfl, text, rfl⟩ h
  | some found => rw [closeComment?_append_right hclose]; rfl

/-- The first segment of a text with a line feed is cut off the same way whatever follows the text,
unless it is a comment that does not close. -/
theorem cut_append_right {c : Char} {text : List Char} (h : '\n' ∈ c :: text)
    (hclosed : ¬ (cut c text).1.IsOpenComment) (rest : List Char) :
    cut c (text ++ rest) = extendRest rest (cut c text) := by
  unfold cut at hclosed ⊢
  split at hclosed
  · next hend =>
    simp only [if_pos hend]
    exact lineBreak_append_right h rest
  next hend =>
  have htext : '\n' ∈ text := List.mem_of_ne_of_mem (by rintro rfl; exact hend rfl) h
  simp only [if_neg hend, head?_append_of_lineFeed htext, startsWithDigit_append htext]
  split at hclosed
  · next hblank =>
    simp only [if_pos hblank]
    exact blanks_append_right h rest
  next hblank =>
  simp only [if_neg hblank]
  split at hclosed
  · next hslash =>
    simp only [if_pos hslash]
    exact lineComment_append_right h rest
  next hslash =>
  simp only [if_neg hslash]
  split at hclosed
  · next hstar =>
    have hdrop : (text ++ rest).drop 1 = text.drop 1 ++ rest := by
      obtain ⟨tail, rfl⟩ := List.head?_eq_some_iff.1 hstar.2
      rfl
    simp only [if_pos hstar, hdrop]
    exact blockComment_append_right hclosed rest
  next hstar =>
  simp only [if_neg hstar]
  split
  · exact quoted_append_right c htext rest
  split
  · exact word_append_right h rest
  split
  · exact numeral_append_right h rest
  · exact mark_append_right htext rest

end Segment

/-! ## Lines further down -/

/-- The same column, some lines further down. -/
def Position.down (lines : Nat) (p : Position) : Position := ⟨p.line + lines, p.column⟩

def Span.down (lines : Nat) (span : Span) : Span := ⟨span.start.down lines, span.stop.down lines⟩

def Token.down (lines : Nat) (t : Token) : Token := { t with span := t.span.down lines }

def Gap.down (lines : Nat) (gap : Gap) : Gap := { gap with position := gap.position.down lines }

def Piece.down (lines : Nat) (p : Piece) : Piece :=
  { p with made := p.made.map (Token.down lines) (Gap.down lines) }

section Down

variable (lines : Nat)

/-- To go on by a character and to go down some lines can be exchanged. -/
theorem Position.next_down (p : Position) (c : Char) (following : Option Char) :
    (p.down lines).next c following = (p.next c following).down lines := by
  unfold next
  split
  · exact congrArg (Position.mk · 0) (Nat.add_right_comm ..)
  · rfl

/-- Counting does not depend on the line where it starts. -/
theorem Position.advance_down (p : Position) (count : Nat) (text : List Char) :
    (p.down lines).advance count text = (p.advance count text).down lines := by
  induction text generalizing p count with
  | nil => cases count <;> rfl
  | cons c text ih =>
    cases count with
    | zero => rfl
    | succ count => rw [advance, advance, next_down, ih]

/-- A segment makes the same piece some lines further down. -/
theorem Segment.toPiece_down (s : Segment) (span : Span) :
    s.toPiece (span.down lines) = (s.toPiece span).down lines := by
  obtain ⟨content, text⟩ := s
  cases content <;> rfl

/-- A text that starts some lines further down is cut into the same pieces, further down. -/
theorem pieces_down (position : Position) (text : List Char) :
    pieces (position.down lines) text = (pieces position text).map (Piece.down lines) := by
  fun_induction pieces position text with
  | case1 position text hnone => rw [pieces_of_none hnone, List.map_nil]
  | case2 position text s rest hsome stop ih =>
    rw [pieces_of_some hsome, Position.advance_down, ih, List.map_cons, ← Segment.toPiece_down]
    rfl

/-- The token of a piece goes down with it. -/
theorem Piece.token?_down (p : Piece) :
    (p.down lines).token? = p.token?.map (Token.down lines) := by
  obtain ⟨text, token | gap⟩ := p <;> rfl

/-- The gap of a piece goes down with it. -/
theorem Piece.gap?_down (p : Piece) : (p.down lines).gap? = p.gap?.map (Gap.down lines) := by
  obtain ⟨text, token | gap⟩ := p <;> rfl

end Down

/-! ## Whole lines -/

/-- `WholeLines text` says that every line of a text ends in it, the last one with a line feed. -/
def WholeLines (text : List Char) : Prop := ∀ c, text.getLast? = some c → c = '\n'

namespace WholeLines

variable {text front rest : List Char}

theorem lineFeed_mem {c : Char} (h : WholeLines (c :: text)) : '\n' ∈ c :: text := by
  have hlast : (c :: text).getLast? = some ((c :: text).getLast (List.cons_ne_nil c text)) :=
    List.getLast?_eq_getLast_of_ne_nil _
  exact h _ hlast ▸ List.getLast_mem _

/-- What is left of whole lines behind a part of them. -/
theorem of_append (h : WholeLines (front ++ rest)) : WholeLines rest := by
  intro c hc
  refine h c ?_
  rw [List.getLast?_append, hc]
  rfl

/-- The places in whole lines do not depend on what follows. -/
theorem advance_append (h : WholeLines text) (rest : List Char) (p : Position) {count : Nat}
    (hcount : count ≤ text.length) : p.advance count (text ++ rest) = p.advance count text := by
  induction text generalizing p count with
  | nil =>
    obtain rfl := Nat.le_zero.1 hcount
    cases rest <;> rfl
  | cons c text ih =>
    cases count with
    | zero => rfl
    | succ count =>
      have hnext : p.next c (text ++ rest).head? = p.next c text.head? := by
        cases text with
        | nil =>
          -- only behind a carriage return it matters what comes next
          obtain rfl := h c rfl
          rfl
        | cons d text => rfl
      rw [List.cons_append, Position.advance, Position.advance, hnext]
      have htail : WholeLines ([c] ++ text) := h
      exact ih htail.of_append _ (Nat.le_of_succ_le_succ hcount)

end WholeLines

/-- A gap that is a block comment without an end. -/
def Gap.isOpenComment (gap : Gap) : Bool := ['/', '*'].isPrefixOf gap.lexeme.toList

/-- A comment that is not closed leaves a gap that shows it. -/
theorem Segment.IsOpenComment.gap {s : Segment} (h : s.IsOpenComment) (span : Span) :
    ∃ gap, (s.toPiece span).gap? = some gap ∧ gap.isOpenComment = true := by
  obtain ⟨content, text⟩ := s
  obtain ⟨rfl, hprefix⟩ := h
  refine ⟨_, rfl, ?_⟩
  rw [Gap.isOpenComment, String.toList_ofList]
  exact List.isPrefixOf_iff_prefix.2 hprefix

/-- The pieces of whole lines stay if more text follows, unless a comment is open at their end, and
the pieces of that text come behind them. -/
theorem pieces_append {position : Position} {text : List Char} (h : WholeLines text)
    (hclosed : ∀ gap ∈ (pieces position text).filterMap Piece.gap?, gap.isOpenComment = false)
    (rest : List Char) :
    pieces position (text ++ rest) =
      pieces position text ++ pieces (position.advance text.length text) rest := by
  fun_induction pieces position text with
  | case1 position text hnone =>
    cases text with
    | nil => rfl
    | cons c text => cases hnone
  | case2 position text s after hsome stop ih =>
    have happend := first?_append hsome
    have hlength : s.text.length ≤ text.length := by
      rw [← happend, List.length_append]
      omega
    have hafter : WholeLines after := WholeLines.of_append (happend.symm ▸ h)
    have hgap : ∀ gap, (s.toPiece ⟨position, stop⟩).gap? = some gap →
        gap.isOpenComment = false := fun gap hgap =>
      hclosed gap (List.mem_filterMap.2 ⟨_, List.mem_cons_self, hgap⟩)
    have hopen : ¬ s.IsOpenComment := by
      intro hopen
      obtain ⟨gap, hmade, hcomment⟩ := hopen.gap ⟨position, stop⟩
      rw [hgap gap hmade] at hcomment
      cases hcomment
    have hfirst : Segment.first? (text ++ rest) = some (s, after ++ rest) := by
      cases text with
      | nil => cases hsome
      | cons c text =>
        have hcut : Segment.cut c text = (s, after) := Option.some.inj hsome
        rw [List.cons_append, Segment.first?,
          Segment.cut_append_right h.lineFeed_mem (by rwa [hcut]), hcut]
        rfl
    have hstop : position.advance s.text.length (text ++ rest) = stop :=
      h.advance_append rest position hlength
    have hend : stop.advance after.length after = position.advance text.length text := by
      show (position.advance s.text.length text).advance after.length after = _
      rw [← happend, ← Position.advance_append, List.length_append]
    have hothers : ∀ gap ∈ (pieces stop after).filterMap Piece.gap?, gap.isOpenComment = false := by
      intro gap hmem
      obtain ⟨p, hp, hmade⟩ := List.mem_filterMap.1 hmem
      exact hclosed gap (List.mem_filterMap.2 ⟨p, List.mem_cons_of_mem _ hp, hmade⟩)
    rw [pieces_of_some hfirst, hstop, ih hafter hothers, hend]
    rfl

/-- Whole lines lead down as many lines as they have line terminators, to the start of a line. -/
theorem Position.advance_wholeLines (p : Position) {text : List Char}
    (h : text.getLast? = some '\n') :
    p.advance text.length text = ⟨p.line + lineTerminators text, 0⟩ := by
  have hline : (p.advance text.length text).line = p.line + lineTerminators text := by
    have hnil : ([] : List Char).head? ≠ some '\n' := nofun
    have hadvance := p.line_advance text hnil
    rwa [List.append_nil] at hadvance
  have hcolumn : (p.advance text.length text).column = 0 := by
    obtain ⟨front, rfl⟩ := List.getLast?_eq_some_iff.1 h
    rw [List.length_append, List.length_singleton, advance_append]
    rfl
  rw [← hline, ← hcolumn]

/-! ## Scripts -/

/-- The gaps that are noted while the tokens of a script are read without the given kinds. -/
def gapsExcluding (source : String) (kinds : List TokenKind) : List Gap :=
  ((Lexer.ofSource source).excluding kinds).tokenize.2.gaps.toList

/-- The gaps of a script are those of its pieces, whatever kinds are left out. -/
theorem gapsExcluding_eq (source : String) (kinds : List TokenKind) :
    gapsExcluding source kinds = (pieces .origin source.toList).filterMap Piece.gap? := by
  rw [gapsExcluding, Lexer.tokenize_gaps, Lexer.allGaps]
  rfl

/-- The pieces of a script behind another one that ends with a line. -/
theorem pieces_behind {first : String} {kinds : List TokenKind}
    (hline : first.toList.getLast? = some '\n')
    (hclosed : ∀ gap ∈ gapsExcluding first kinds, gap.isOpenComment = false) (second : String) :
    pieces .origin (first ++ second).toList =
      pieces .origin first.toList ++
        (pieces .origin second.toList).map (Piece.down (lineTerminators first.toList)) := by
  have hwhole : WholeLines first.toList := by
    intro c hc
    rw [hline] at hc
    exact (Option.some.inj hc).symm
  rw [gapsExcluding_eq] at hclosed
  rw [String.toList_append, pieces_append hwhole hclosed, Position.advance_wholeLines _ hline,
    ← pieces_down]
  rfl

/-- Scripts are cut into tokens line by line. Behind a script that ends with a line feed and in
which every comment closes, a script has the tokens and the gaps that it has alone, in the same
columns and as many lines further down as the first script has line terminators. The tokens and the
gaps of the first script stay as they are, whatever kinds of tokens are left out. -/
theorem lexing_by_lines (first second : String) (kinds : List TokenKind)
    (hline : first.toList.getLast? = some '\n')
    (hclosed : ∀ gap ∈ gapsExcluding first kinds, gap.isOpenComment = false) :
    tokenizeExcluding (first ++ second) kinds = tokenizeExcluding first kinds ++
        (tokenizeExcluding second kinds).map (Token.down (lineTerminators first.toList)) ∧
      gapsExcluding (first ++ second) kinds = gapsExcluding first kinds ++
        (gapsExcluding second kinds).map (Gap.down (lineTerminators first.toList)) := by
  have hpieces := pieces_behind hline hclosed second
  constructor
  · have htokens : (Piece.token? ∘ Piece.down (lineTerminators first.toList)) =
        fun p => p.token?.map (Token.down (lineTerminators first.toList)) :=
      funext fun p => p.token?_down _
    rw [tokenizeExcluding_eq, hpieces, List.filterMap_append, List.filter_append,
      ← tokenizeExcluding_eq, tokenizeExcluding_eq second, List.filterMap_map, htokens,
      ← List.map_filterMap, List.filter_map]
    rfl
  · have hgaps : (Piece.gap? ∘ Piece.down (lineTerminators first.toList)) =
        fun p => p.gap?.map (Gap.down (lineTerminators first.toList)) :=
      funext fun p => p.gap?_down _
    rw [gapsExcluding_eq, hpieces, List.filterMap_append, ← gapsExcluding_eq first kinds,
      gapsExcluding_eq second, List.filterMap_map, hgaps, ← List.map_filterMap]

/-- A string that does not close ends with its line, and the operator at the end of the first script
does not run on into the second one. -/
theorem lexing_by_lines_string :
    tokenizeExcluding ("x = 'a\r\ny >\n" ++ "> 1e@\n") [.space] =
        tokenizeExcluding "x = 'a\r\ny >\n" [.space] ++
          (tokenizeExcluding "> 1e@\n" [.space]).map (Token.down 2) ∧
      gapsExcluding ("x = 'a\r\ny >\n" ++ "> 1e@\n") [.space] =
        [⟨"'a", ⟨1, 4⟩⟩] ++ [⟨"@", ⟨3, 4⟩⟩] := by
  have hline : "x = 'a\r\ny >\n".toList.getLast? = some '\n' := by decide
  have hclosed : ∀ gap ∈ gapsExcluding "x = 'a\r\ny >\n" [.space],
      gap.isOpenComment = false := by decide +kernel
  have hfirst : gapsExcluding "x = 'a\r\ny >\n" [.space] = [⟨"'a", ⟨1, 4⟩⟩] := by
    decide +kernel
  have hsecond : gapsExcluding "> 1e@\n" [.space] = [⟨"@", ⟨1, 4⟩⟩] := by decide +kernel
  obtain ⟨htokens, hgaps⟩ :=
    lexing_by_lines "x = 'a\r\ny >\n" "> 1e@\n" [.space] hline hclosed
  rw [hfirst, hsecond] at hgaps
  exact ⟨htokens, hgaps⟩

end ScriptLint
