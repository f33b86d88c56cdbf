import ScriptLint.Proofs.Token.LongestNumeral
import ScriptLint.Proofs.Token.WholeLines

/-!
# Lexemes

The texts that tokens are written as, class by class, said without the functions that read them.
Names, white space and line comments go on as long as the next character fits. Strings and block
comments end at the first place where they can. Line breaks, numerals and punctuators are given by
their spellings.

For each class there is a statement on the function that reads it: what is read belongs to the
class, and no longer text of the class stands at the same place (`Longest`). The functions that
look for the end of a comment or a string find the first one, so there is one text of these classes
at a place at most (`closeComment?_of_body`, `Quotation.read_of_contents`).
-/

namespace ScriptLint

open Text

/-- `w` is the longest text of a class that `w ++ rest` starts with. -/
structure Longest (P : List Char → Prop) (w rest : List Char) : Prop where
  mem : P w
  length_le : ∀ v, P v → v <+: w ++ rest → v.length ≤ w.length

namespace Longest

variable {P Q : List Char → Prop} {w rest : List Char}

/-- A class of texts that do not stand at the place can be added. -/
theorem or_left (h : Longest P w rest) (hother : ∀ v, Q v → ¬ v <+: w ++ rest) :
    Longest (fun v => P v ∨ Q v) w rest where
  mem := .inl h.mem
  length_le := fun v hv hprefix => hv.elim (fun hv => h.length_le v hv hprefix)
    fun hv => absurd hprefix (hother v hv)

/-- A text that is the longest of one class is so of two if none of the other starts there. -/
theorem or_right (h : Longest Q w rest) (hother : ∀ v, P v → ¬ v <+: w ++ rest) :
    Longest (fun v => P v ∨ Q v) w rest where
  mem := .inr h.mem
  length_le := fun v hv hprefix => hv.elim (fun hv => absurd hprefix (hother v hv))
    fun hv => h.length_le v hv hprefix

end Longest

/-- Characters that are taken while they fit are the longest text of a class in which all fit. -/
theorem longest_takeWhile {P : List Char → Prop} {p : Char → Bool} {text : List Char}
    (hmem : P (text.takeWhile p)) (hfit : ∀ v, P v → ∀ c ∈ v, p c = true) :
    Longest P (text.takeWhile p) (text.dropWhile p) := by
  refine ⟨hmem, fun v hv hprefix => ?_⟩
  rw [List.takeWhile_append_dropWhile] at hprefix
  obtain ⟨after, rfl⟩ := hprefix
  rw [List.takeWhile_append_of_pos (hfit v hv), List.length_append]
  exact Nat.le_add_right _ _

/-! ## White space and names -/

/-- A run of white space that stays on its line. -/
def IsBlankRun (w : List Char) : Prop := w ≠ [] ∧ ∀ c ∈ w, isInlineBlank c = true

/-- A line feed, a carriage return, or both in this order. -/
def IsLineBreak (w : List Char) : Prop := w = ['\n'] ∨ w = ['\r'] ∨ w = ['\r', '\n']

/-- A letter, an underscore or a dollar sign. -/
def IsNameLetter (c : Char) : Prop :=
  ('A' ≤ c ∧ c ≤ 'Z') ∨ ('a' ≤ c ∧ c ≤ 'z') ∨ c = '_' ∨ c = '$'

/-- A word of letters and digits that does not start with a digit. -/
def IsName (w : List Char) : Prop :=
  ∃ c rest, w = c :: rest ∧ IsNameLetter c ∧
    ∀ d ∈ rest, IsNameLetter d ∨ ('0' ≤ d ∧ d ≤ '9')

/-- The test for the start of a name is the list of its characters. -/
theorem isNameStart_iff {c : Char} : isNameStart c = true ↔ IsNameLetter c := by
  have hranges : isNameStart c = (decide ('A' ≤ c ∧ c ≤ 'Z') ||
      (decide ('a' ≤ c) && decide (c ≤ 'z')) || c == '_' || c == '$') := rfl
  simp only [hranges, IsNameLetter, Bool.or_eq_true, Bool.and_eq_true, decide_eq_true_eq,
    beq_iff_eq, or_assoc]

/-- A name goes on with letters and digits. -/
theorem isNamePart_iff {c : Char} :
    isNamePart c = true ↔ IsNameLetter c ∨ ('0' ≤ c ∧ c ≤ '9') := by
  have hranges : isNamePart c = (c.isAlpha || (decide ('0' ≤ c) && decide (c ≤ '9')) ||
      c == '_' || c == '$') := rfl
  rw [← isNameStart_iff]
  simp only [hranges, isNameStart, Bool.or_eq_true, Bool.and_eq_true, decide_eq_true_eq,
    beq_iff_eq]
  grind

namespace Segment

/-- A line break takes a line feed behind a carriage return. -/
theorem lineBreak_longest {c : Char} (h : isLineEnd c = true) (rest : List Char) :
    Longest IsLineBreak (lineBreak c rest).1.text (lineBreak c rest).2 := by
  rw [lineBreak]
  split
  · next hpair =>
    obtain ⟨rfl, -⟩ := hpair
    refine ⟨.inr (.inr rfl), fun v hv _ => ?_⟩
    show v.length ≤ 2
    obtain rfl | rfl | rfl := hv <;> decide
  · next hsingle =>
    refine ⟨?_, ?_⟩
    · obtain rfl | rfl := isLineEnd_iff.1 h
      · exact .inl rfl
      · exact .inr (.inl rfl)
    · rintro v (rfl | rfl | rfl) hprefix
      · exact Nat.le_refl 1
      · exact Nat.le_refl 1
      · refine absurd ?_ hsingle
        obtain ⟨rfl, hprefix⟩ := List.cons_prefix_cons.1 hprefix
        exact ⟨rfl, by obtain ⟨after, rfl⟩ := hprefix; rfl⟩

/-- Blanks within a line are taken as far as they go. -/
theorem blanks_longest {c : Char} (h : isInlineBlank c = true) (rest : List Char) :
    Longest IsBlankRun (blanks (c :: rest)).1.text (blanks (c :: rest)).2 := by
  refine longest_takeWhile ⟨?_, fun c => List.mem_takeWhile_imp⟩ fun v hv => hv.2
  rw [List.takeWhile_cons_of_pos h]
  exact List.cons_ne_nil _ _

/-- A name is taken as far as it goes. -/
theorem word_longest {c : Char} (h : isNameStart c = true) (rest : List Char) :
    Longest IsName (word (c :: rest)).1.text (word (c :: rest)).2 := by
  have hletter := isNameStart_iff.1 h
  refine longest_takeWhile ?_ ?_
  · rw [List.takeWhile_cons_of_pos (isNamePart_iff.2 (.inl hletter))]
    exact ⟨c, _, rfl, hletter, fun d hd => isNamePart_iff.1 (List.mem_takeWhile_imp hd)⟩
  · rintro _ ⟨c, rest, rfl, hc, hrest⟩
    exact List.forall_mem_cons.2
      ⟨isNamePart_iff.2 (.inl hc), fun d hd => isNamePart_iff.2 (hrest d hd)⟩

end Segment

/-! ## Comments -/

/-- A comment to the end of its line. -/
def IsLineComment (w : List Char) : Prop := ['/', '/'] <+: w ∧ ∀ c ∈ w, isLineEnd c = false

/-- The text within a block comment. The end that closes the comment is the first one behind its
opening; the star of that end belongs to no earlier one. -/
def IsCommentBody (body : List Char) : Prop := ¬ ['*', '/'] <:+: body ++ ['*']

/-- A comment between marks. -/
def IsBlockComment (w : List Char) : Prop :=
  ∃ body, IsCommentBody body ∧ w = '/' :: '*' :: (body ++ ['*', '/'])

theorem pair_prefix_iff {a b c : Char} {text : List Char} :
    [a, b] <+: c :: text ↔ c = a ∧ text.head? = some b := by
  cases text with
  | nil => simp
  | cons d text => simp [List.cons_prefix_cons, eq_comm]

/-- A comment is closed by its first end. -/
theorem closeComment?_of_body {body : List Char} (h : IsCommentBody body) (rest : List Char) :
    closeComment? (body ++ '*' :: '/' :: rest) = some (body ++ ['*', '/'], rest) := by
  induction body with
  | nil => rfl
  | cons c body ih =>
    rw [IsCommentBody, List.cons_append, List.infix_cons_iff, not_or, pair_prefix_iff] at h
    -- whether an end starts here is seen from the body and the star behind it
    have hhead : (body ++ '*' :: '/' :: rest).head? = (body ++ ['*']).head? := by
      cases body <;> rfl
    rw [List.cons_append, closeComment?, hhead, if_neg h.1, ih h.2]
    rfl

/-- What is taken up to the end of a comment holds no other end. -/
theorem isCommentBody_of_closeComment? {text close rest : List Char}
    (h : closeComment? text = some (close, rest)) :
    ∃ body, IsCommentBody body ∧ close = body ++ ['*', '/'] := by
  induction text generalizing close rest with
  | nil => cases h
  | cons c text ih =>
    rw [closeComment?] at h
    split at h
    · cases h
      refine ⟨[], ?_, rfl⟩
      show ¬ ['*', '/'] <:+: ['*']
      decide
    · next hopen =>
      obtain ⟨⟨close, after⟩, hclose, heq⟩ := Option.map_eq_some_iff.1 h
      cases heq
      obtain ⟨body, hbody, rfl⟩ := ih hclose
      refine ⟨c :: body, ?_, rfl⟩
      rw [IsCommentBody, List.cons_append, List.infix_cons_iff, not_or, pair_prefix_iff]
      refine ⟨?_, hbody⟩
      have hhead : text.head? = (body ++ ['*']).head? := by
        rw [← closeComment?_append hclose]
        cases body <;> rfl
      rwa [← hhead]

/-- Without an end no end stands anywhere in the text. -/
theorem closeComment?_eq_none {text : List Char} (h : closeComment? text = none) :
    ¬ ['*', '/'] <:+: text := by
  induction text with
  | nil => decide
  | cons c text ih =>
    rw [closeComment?] at h
    split at h
    · cases h
    · next hopen =>
      rw [List.infix_cons_iff, not_or, pair_prefix_iff]
      exact ⟨hopen, ih (Option.map_eq_none_iff.1 h)⟩

/-! ## Strings -/

/-- The text within a string. A backslash takes the next character along, and no other quote of the
kind that opened the string stands in it. There is no line end. -/
inductive IsContents (quote : Char) : List Char → Prop where
  | nil : IsContents quote []
  | plain {c : Char} {rest : List Char} : c ≠ quote → c ≠ '\\' → isLineEnd c = false →
      IsContents quote rest → IsContents quote (c :: rest)
  | escaped {c : Char} {rest : List Char} : isLineEnd c = false → IsContents quote rest →
      IsContents quote ('\\' :: c :: rest)

/-- A text between quotes. -/
def IsQuoted (w : List Char) : Prop :=
  ∃ quote contents, isQuote quote = true ∧ IsContents quote contents ∧
    w = quote :: (contents ++ [quote])

namespace Quotation

variable {quote : Char} {text contents : List Char}

/-- A string is closed by the first quote that is not escaped. -/
theorem read_of_contents (hquote : isQuote quote = true) (h : IsContents quote contents)
    (rest : List Char) : read quote (contents ++ quote :: rest) = ⟨contents, true, rest⟩ := by
  induction h with
  | nil =>
    rw [List.nil_append, read.eq_def]
    exact if_pos rfl
  | plain hne hback hend _ ih =>
    rw [List.cons_append, read.eq_def]
    simp [hne, hback, hend, ih]
  | escaped hend _ ih =>
    have hquote : '\\' ≠ quote := by
      rintro rfl
      cases hquote
    rw [List.cons_append, List.cons_append, read.eq_def]
    simp [hquote, hend, ih, show isLineEnd '\\' = false from rfl]

/-- What is read up to the closing quote is the text within a string. -/
theorem isContents_of_closed (h : (read quote text).closed = true) :
    IsContents quote (read quote text).contents := by
  fun_induction read quote text with
  | case1 => cases h
  | case2 => exact .nil
  | case3 => cases h
  | case4 => cases h
  | case5 => cases h
  | case6 c rest hend _ _ _ ih => exact .escaped (Bool.eq_false_iff.2 hend) (ih h)
  | case7 c rest hquote hend hback _ ih =>
    exact .plain hquote hback (Bool.eq_false_iff.2 hend) (ih h)

/-- A string does not reach over the end of its line. -/
theorem isLineEnd_of_mem_contents :
    ∀ c ∈ (read quote text).contents, isLineEnd c = false := by
  fun_induction read quote text with
  | case1 => exact List.forall_mem_nil _
  | case2 => exact List.forall_mem_nil _
  | case3 => exact List.forall_mem_nil _
  | case4 => exact List.forall_mem_singleton.2 rfl
  | case5 => exact List.forall_mem_singleton.2 rfl
  | case6 c rest hend _ _ _ ih =>
    exact List.forall_mem_cons.2 ⟨rfl, List.forall_mem_cons.2 ⟨Bool.eq_false_iff.2 hend, ih⟩⟩
  | case7 c rest _ hend _ _ ih => exact List.forall_mem_cons.2 ⟨Bool.eq_false_iff.2 hend, ih⟩

/-- A string that does not close goes on to the end of its line. -/
theorem isLineEnd_of_not_closed (h : (read quote text).closed = false) :
    ∀ c ∈ (read quote text).rest.head?, isLineEnd c = true := by
  fun_induction read quote text with
  | case1 => rintro _ ⟨⟩
  | case2 => cases h
  | case3 c rest _ hend =>
    rintro _ ⟨⟩
    exact hend
  | case4 => rintro _ ⟨⟩
  | case5 c rest hend =>
    rintro _ ⟨⟩
    exact hend
  | case6 _ _ _ _ _ _ ih => exact ih h
  | case7 _ _ _ _ _ _ ih => exact ih h

end Quotation

namespace Segment

/-- A line comment is taken as far as its line goes. -/
theorem lineComment_longest {rest : List Char} (h : rest.head? = some '/') :
    Longest IsLineComment (lineComment ('/' :: rest)).1.text (lineComment ('/' :: rest)).2 := by
  refine longest_takeWhile ⟨?_, fun c hc => ?_⟩ fun v hv c hc => ?_
  · obtain ⟨rest, rfl⟩ := List.head?_eq_some_iff.1 h
    exact ⟨rest.takeWhile (!isLineEnd ·), rfl⟩
  · simpa using List.mem_takeWhile_imp hc
  · simpa using hv.2 c hc

/-- There is one block comment at a place at most. -/
theorem blockComment_longest {rest close after : List Char}
    (h : closeComment? rest = some (close, after)) :
    Longest IsBlockComment ('/' :: '*' :: close) after := by
  obtain ⟨body, hbody, rfl⟩ := isCommentBody_of_closeComment? h
  refine ⟨⟨body, hbody, rfl⟩, ?_⟩
  -- another comment at this place would be read too
  rintro _ ⟨other, hother, rfl⟩ ⟨tail, htail⟩
  have htext : other ++ '*' :: '/' :: tail = rest := by
    rw [← closeComment?_append h]
    simpa using htail
  have hclose := closeComment?_of_body hother tail
  rw [htext, h, Option.some.injEq, Prod.mk.injEq] at hclose
  rw [hclose.1]

/-- There is one string at a place at most. -/
theorem quoted_longest {quote : Char} (hquote : isQuote quote = true) {rest : List Char}
    (h : (Quotation.read quote rest).closed = true) :
    Longest IsQuoted (quoted quote rest).1.text (quoted quote rest).2 := by
  rw [quoted, if_pos h]
  refine ⟨⟨quote, _, hquote, Quotation.isContents_of_closed h, rfl⟩, ?_⟩
  rintro _ ⟨other, contents, hother, hcontents, rfl⟩ ⟨tail, htail⟩
  have hread := Quotation.read_append quote rest
  rw [if_pos h] at hread
  rw [List.cons_append, List.cons_append, hread, List.cons.injEq] at htail
  obtain ⟨rfl, htail⟩ := htail
  rw [← htail, List.append_assoc, List.singleton_append,
    Quotation.read_of_contents hquote hcontents]

end Segment

/-! ## Numerals and punctuators -/

/-- A text that a proper numeral is written as. -/
def IsNumber (w : List Char) : Prop := ∃ n : Numeral, n.Proper ∧ n.text = w

/-- A number is taken as far as it goes. -/
theorem Segment.numeral_longest {c : Char} {rest : List Char}
    (h : isDecimalDigit c ∨ (c = '.' ∧ startsWithDigit 10 rest)) :
    Longest IsNumber (numeral (c :: rest)).1.text (numeral (c :: rest)).2 := by
  refine ⟨⟨_, Numeral.read_proper h, rfl⟩, ?_⟩
  rintro _ ⟨n, hn, rfl⟩ ⟨tail, htail⟩
  have hle := hn.length_le_read tail
  rwa [htail.trans (Numeral.read_append (c :: rest))] at hle

/-- A text that a punctuator is written as. -/
def IsMark (w : List Char) : Prop := ∃ p : Punctuator, p.spelling.toList = w

namespace Punctuator

variable {text : List Char} {p : Punctuator}

theorem mem_all (p : Punctuator) : p ∈ all := by cases p <;> decide

/-- Punctuators have one to four characters. -/
theorem length_spelling_mem (p : Punctuator) : p.spelling.toList.length ∈ [4, 3, 2, 1] := by
  cases p <;> decide

/-- Some punctuator is found at every length that a punctuator in front of the text has. -/
theorem spelledBy?_isSome (h : p.spelling.toList <+: text) :
    (spelledBy? text p.spelling.toList.length).isSome = true := by
  rw [spelledBy?, if_pos h.length_le, ← List.prefix_iff_eq_take.1 h, String.ofList_toList,
    ofSpelling?, List.find?_isSome]
  exact ⟨p, p.mem_all, beq_self_eq_true _⟩

/-- If a punctuator stands at the start, one is found. -/
theorem longest?_isSome (h : p.spelling.toList <+: text) : (longest? text).isSome = true := by
  rw [longest?_eq, List.findSome?_isSome_iff]
  refine ⟨_, p.length_spelling_mem, ?_⟩
  rw [Option.isSome_map]
  exact spelledBy?_isSome h

/-- No punctuator that a text starts with is longer than the one that is found. -/
theorem length_le_of_longest? {q : Punctuator} {count : Nat}
    (h : longest? text = some (q, count)) (hp : p.spelling.toList <+: text) :
    p.spelling.toList.length ≤ count := by
  rw [longest?_eq] at h
  obtain ⟨longer, length, shorter, hlengths, hfound, hnone⟩ := List.findSome?_eq_some_iff.1 h
  obtain ⟨_, -, heq⟩ := Option.map_eq_some_iff.1 hfound
  obtain rfl : length = count := (Prod.mk.inj heq).2
  -- the lengths are tried from the longest on, and none was found before
  have hsorted : (longer ++ length :: shorter).Pairwise (· > ·) := hlengths ▸ (by decide)
  have hmem := p.length_spelling_mem
  rw [hlengths] at hmem
  obtain hlonger | hrest := List.mem_append.1 hmem
  · have hsome := spelledBy?_isSome hp
    rw [Option.map_eq_none_iff.1 (hnone _ hlonger)] at hsome
    cases hsome
  · obtain heq | hshorter := List.mem_cons.1 hrest
    · exact Nat.le_of_eq heq
    · have hlt := List.rel_of_pairwise_cons (List.pairwise_append.1 hsorted).2.1 hshorter
      exact Nat.le_of_lt hlt

end Punctuator

/-- The punctuator that is found is the longest one that starts there. -/
theorem Segment.mark_longest {c : Char} {rest : List Char} {p : Punctuator} {count : Nat}
    (h : Punctuator.longest? (c :: rest) = some (p, count)) :
    Longest IsMark ((c :: rest).take count) ((c :: rest).drop count) := by
  refine ⟨⟨p, ?_⟩, ?_⟩
  · rw [Punctuator.spelling_of_longest? h, String.toList_ofList]
  · rintro _ ⟨q, rfl⟩ hprefix
    rw [List.take_append_drop] at hprefix
    have hcount : count ≤ ((c :: rest).take 4).length :=
      (Punctuator.spelledBy?_eq_some (Punctuator.longest?_eq_some h).2).1
    rw [List.length_take_of_le (hcount.trans (List.length_take_le' 4 _))]
    exact Punctuator.length_le_of_longest? h hprefix

end ScriptLint
