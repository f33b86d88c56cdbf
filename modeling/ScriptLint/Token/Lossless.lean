import ScriptLint.Token.Segment

/-!
# Nothing of a script is lost

A segment and the text behind it make up the text they were cut from (`Segment.cut_append`), and
no segment is empty (`Segment.cut_text_ne_nil`). The text behind a segment is therefore shorter.
-/

namespace ScriptLint

open Text

/-- A closed comment and what follows it make up the text. -/
theorem closeComment?_append {text body rest : List Char}
    (h : closeComment? text = some (body, rest)) : body ++ rest = text := by
  induction text generalizing body rest with
  | nil => simp [closeComment?] at h
  | cons c text ih =>
    rw [closeComment?] at h
    split at h
    · next hend =>
      cases h
      obtain ⟨rfl, hhead⟩ := hend
      cases text with
      | nil => simp at hhead
      | cons d text => simp_all
    · obtain ⟨⟨body, rest⟩, hclose, heq⟩ := Option.map_eq_some_iff.1 h
      cases heq
      simp [ih hclose]

/-- The contents of a string, the quote that closes it and what follows make up the text. -/
theorem Quotation.read_append (quote : Char) (text : List Char) :
    (read quote text).contents ++ (if (read quote text).closed then [quote] else []) ++
      (read quote text).rest = text := by
  fun_induction Quotation.read quote text <;> simp_all +zetaDelta

/-- A sign and what follows it make up the text. -/
theorem Exponent.readSign_append (text : List Char) :
    (readSign text).1.toList ++ (readSign text).2 = text := by
  cases text with
  | nil => rfl
  | cons c text =>
    rw [readSign]
    split <;> simp

/-- An exponent and what follows it make up the text. -/
theorem Exponent.read?_append {text rest : List Char} {e : Exponent}
    (h : Exponent.read? text = some (e, rest)) : e.text ++ rest = text := by
  cases text with
  | nil => simp [Exponent.read?] at h
  | cons mark text =>
    rw [Exponent.read?] at h
    split at h
    · simp only at h
      split at h
      · cases h
        simp [Exponent.text, Exponent.readSign_append]
      · cases h
    · cases h

namespace Numeral

/-- A fraction and what follows it make up the text. -/
theorem readFraction?_append {afterDigit : Bool} {text digits rest : List Char}
    (h : readFraction? afterDigit text = some (digits, rest)) :
    '.' :: (digits ++ rest) = text := by
  cases text with
  | nil => simp [readFraction?] at h
  | cons point text =>
    rw [readFraction?] at h
    split at h
    · next hpoint =>
      cases h
      simp [hpoint.1]
    · cases h

/-- A numeral with a base mark and what follows it make up the text. -/
theorem readRadix?_append {text rest : List Char} {n : Numeral}
    (h : readRadix? text = some (n, rest)) : n.text ++ rest = text := by
  match text with
  | [] => simp [readRadix?] at h
  | [_] => simp [readRadix?] at h
  | zero :: mark :: text =>
    rw [readRadix?] at h
    split at h
    · split at h
      · next hzero =>
        cases h
        simp [Numeral.text, hzero.1]
      · cases h
    · cases h

/-- A decimal numeral and what follows it make up the text. -/
theorem readDecimal_append (text : List Char) :
    (readDecimal text).1.text ++ (readDecimal text).2 = text := by
  have hexponent : ∀ tail : List Char,
      (((Exponent.read? tail).map (·.1)).map Exponent.text).getD [] ++
        ((Exponent.read? tail).map (·.2)).getD tail = tail := by
    intro tail
    cases h : Exponent.read? tail with
    | none => rfl
    | some found => exact Exponent.read?_append h
  rw [readDecimal]
  simp only [Numeral.text, List.append_assoc, hexponent]
  cases h : readFraction? (!(text.takeWhile isDecimalDigit).isEmpty)
      (text.dropWhile isDecimalDigit) with
  | none => simp
  | some found =>
    obtain ⟨digits, rest⟩ := found
    simp [readFraction?_append h]

/-- A numeral and what follows it make up the text. -/
theorem read_append (text : List Char) : (read text).1.text ++ (read text).2 = text := by
  rw [read]
  cases h : readRadix? text with
  | none => simpa using readDecimal_append text
  | some found =>
    obtain ⟨n, rest⟩ := found
    simpa using readRadix?_append h

/-- A text that starts with a digit, or with a point and a digit, starts with a numeral. -/
theorem read_text_ne_nil {c : Char} {rest : List Char}
    (h : isDecimalDigit c ∨ (c = '.' ∧ startsWithDigit 10 rest)) :
    (read (c :: rest)).1.text ≠ [] := by
  rw [read]
  cases hradix : readRadix? (c :: rest) with
  | some found =>
    obtain ⟨n, after⟩ := found
    cases rest with
    | nil => simp [readRadix?] at hradix
    | cons mark rest =>
      rw [readRadix?] at hradix
      split at hradix
      · split at hradix
        · cases hradix
          simp [Numeral.text]
        · cases hradix
      · cases hradix
  | none =>
    rw [Option.getD_none, readDecimal]
    by_cases hdigit : isDecimalDigit c = true
    · simp [Numeral.text, hdigit]
    · obtain ⟨rfl, hnext⟩ := h.resolve_left hdigit
      simp [Numeral.text, readFraction?, hdigit, hnext]

end Numeral

/-- The longest punctuator has at least one character. -/
theorem Punctuator.longest?_pos {text : List Char} {p : Punctuator} {count : Nat}
    (h : longest? text = some (p, count)) : 0 < count := by
  obtain ⟨n, hn, hfound⟩ := List.exists_of_findSome?_eq_some h
  obtain ⟨q, _, heq⟩ := Option.map_eq_some_iff.1 hfound
  cases heq
  revert hn
  simp only [List.mem_cons, List.not_mem_nil, or_false]
  omega

namespace Segment

/-- A segment and the text behind it make up the text it was cut from. -/
theorem cut_append (c : Char) (rest : List Char) :
    (cut c rest).1.text ++ (cut c rest).2 = c :: rest := by
  rw [cut]
  split
  · rw [lineBreak]
    split
    · next h =>
      cases rest with
      | nil => simp at h
      | cons d rest => simp_all [verbatim]
    · simp [verbatim]
  split
  · simp [blanks, verbatim]
  split
  · simp only [lineComment, verbatim, List.takeWhile_append_dropWhile]
  split
  · next h =>
    cases rest with
    | nil => simp at h
    | cons d rest =>
      simp only [List.head?_cons, Option.some.injEq] at h
      obtain ⟨rfl, rfl⟩ := h
      simp only [List.drop_succ_cons, List.drop_zero, blockComment]
      split
      · next body after hclose => simp [verbatim, closeComment?_append hclose]
      · simp
  split
  · have := Quotation.read_append c rest
    rw [quoted]
    split <;> simp_all
  split
  · simp only [word, List.takeWhile_append_dropWhile]
  split
  · exact Numeral.read_append (c :: rest)
  · rw [mark]
    split <;> simp

/-- No segment is empty. -/
theorem cut_text_ne_nil (c : Char) (rest : List Char) : (cut c rest).1.text ≠ [] := by
  intro hnil
  rw [cut] at hnil
  split at hnil
  · rw [lineBreak] at hnil
    split at hnil <;> simp [verbatim] at hnil
  split at hnil
  · next h h' => simp [blanks, verbatim, isInlineBlank, h, h'] at hnil
  split at hnil
  · next h _ _ => simp [lineComment, verbatim, h] at hnil
  split at hnil
  · rw [blockComment] at hnil
    split at hnil <;> simp [verbatim] at hnil
  split at hnil
  · rw [quoted] at hnil
    split at hnil <;> simp at hnil
  split at hnil
  · next h =>
    have hpart : isNamePart c = true := by
      simp only [isNameStart, isNamePart, Char.isAlphanum, Bool.or_eq_true] at h ⊢
      grind
    simp [word, hpart] at hnil
  split at hnil
  · next h => exact Numeral.read_text_ne_nil h hnil
  · rw [mark] at hnil
    split at hnil
    · next hlongest =>
      have := Punctuator.longest?_pos hlongest
      simp at hnil
      omega
    · simp at hnil

/-- The text behind a segment is shorter than the text it was cut from. -/
theorem cut_rest_length (c : Char) (rest : List Char) :
    (cut c rest).2.length < (c :: rest).length := by
  have happend := congrArg List.length (cut_append c rest)
  have hne := List.length_pos_iff.2 (cut_text_ne_nil c rest)
  rw [List.length_append] at happend
  omega

/-- The text behind the first segment is shorter than the whole. -/
theorem first?_rest_length {text rest : List Char} {s : Segment}
    (h : first? text = some (s, rest)) : rest.length < text.length := by
  cases text with
  | nil => simp [first?] at h
  | cons c text =>
    have hcut := cut_rest_length c text
    simp only [first?, Option.some.injEq] at h
    rwa [h] at hcut

end Segment

end ScriptLint
