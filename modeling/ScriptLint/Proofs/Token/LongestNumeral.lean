import ScriptLint.Proofs.Json.Grammar

/-!
# The longest numeral

Which numerals there are, said without a reader: `Numeral.Proper` holds of those whose parts are
digits, with at least one where the rules ask for one. A numeral is written as `Numeral.text`.

The reader takes a proper numeral (`Numeral.read_proper`), and no longer one stands at the same
place (`Numeral.Proper.length_le_read`). The parts of a decimal start with characters that do not
continue the part before, so each part is read to its end before the next one is looked at. Only a
zero before a base mark could be read in two ways, and the longer way is tried first.

No text is written by two proper numerals (`Numeral.Proper.read_text`).
-/

namespace ScriptLint

/-- A numeral has digits only where digits belong. Behind a base mark there is at least one, and a
decimal has at least one before or behind its point. -/
def Numeral.Proper : Numeral → Prop
  | .radix base mark digits =>
    baseOfMark? mark = some base ∧ digits ≠ [] ∧ ∀ c ∈ digits, isDigitIn base c = true
  | .decimal whole fraction exponent =>
    (∀ c ∈ whole, isDecimalDigit c = true) ∧
      (∀ places ∈ fraction, ∀ c ∈ places, isDecimalDigit c = true) ∧
      (whole ≠ [] ∨ ∃ places ∈ fraction, places ≠ []) ∧ ∀ e ∈ exponent, e.Valid

/-! ## What is read is proper -/

namespace Numeral

variable {text rest : List Char}

/-- What is read with a base mark is a zero, the mark and digits of that base. -/
theorem proper_of_readRadix? {n : Numeral} (h : readRadix? text = some (n, rest)) :
    n.Proper ∧ ∃ base mark digits, n = .radix base mark digits := by
  rcases text with _ | ⟨zero, _ | ⟨mark, text⟩⟩
  · cases h
  · cases h
  · rw [readRadix?] at h
    split at h
    · next base hbase =>
      split at h
      · next hzero =>
        cases h
        refine ⟨⟨hbase, Json.takeWhile_ne_nil hzero.2, ?_⟩, base, mark, _, rfl⟩
        exact fun c => List.mem_takeWhile_imp
      · cases h
    · cases h

theorem digits_of_readFraction? {afterDigit : Bool} {places : List Char}
    (h : readFraction? afterDigit text = some (places, rest)) :
    ∀ c ∈ places, isDecimalDigit c = true := by
  cases text with
  | nil => cases h
  | cons point text =>
    rw [readFraction?] at h
    split at h
    · cases h
      exact fun c => List.mem_takeWhile_imp
    · cases h

/-- What is read where a numeral starts is one. -/
theorem read_proper {c : Char} (h : isDecimalDigit c ∨ (c = '.' ∧ startsWithDigit 10 rest)) :
    (read (c :: rest)).1.Proper := by
  rw [read]
  cases hradix : readRadix? (c :: rest) with
  | some found => exact (proper_of_readRadix? hradix).1
  | none =>
    rw [Option.getD_none, readDecimal]
    refine ⟨fun c => List.mem_takeWhile_imp, ?_, ?_, ?_⟩
    · intro places hplaces
      obtain ⟨⟨_, _⟩, hfraction, rfl⟩ := Option.map_eq_some_iff.1 hplaces
      exact digits_of_readFraction? hfraction
    · by_cases hdigit : isDecimalDigit c = true
      · exact .inl (by simp [hdigit])
      · obtain ⟨rfl, hnext⟩ := h.resolve_left hdigit
        refine .inr ⟨rest.takeWhile isDecimalDigit, ?_, Json.takeWhile_ne_nil hnext⟩
        simp [readFraction?, hdigit, hnext]
    · intro e he
      obtain ⟨⟨_, _⟩, hexponent, rfl⟩ := Option.map_eq_some_iff.1 he
      exact Json.read?_valid hexponent

end Numeral

/-! ## The text behind an optional part -/

theorem head?_dropWhile_digits (text : List Char) :
    ∀ c ∈ (text.dropWhile isDecimalDigit).head?, isDecimalDigit c = false := by
  intro c hc
  have hnot := List.head?_dropWhile_not isDecimalDigit text
  rw [Option.mem_def.1 hc] at hnot
  exact hnot

namespace Exponent

variable {e : Exponent}

/-- The text behind an exponent, if there is one. -/
def skip (text : List Char) : List Char := ((read? text).map (·.2)).getD text

theorem length_skip_le (text : List Char) : (skip text).length ≤ text.length := by
  cases h : read? text with
  | none => simp [skip, h]
  | some found =>
    have happend := congrArg List.length (read?_append h)
    rw [List.length_append] at happend
    rw [skip, h, Option.map_some, Option.getD_some]
    omega

/-- A valid exponent is read, with the digits behind it. -/
theorem Valid.length_skip_le (h : e.Valid) (rest : List Char) :
    (skip (e.text ++ rest)).length ≤ rest.length := by
  -- with those digits it is a valid exponent that nothing continues
  let more : Exponent := ⟨e.mark, e.sign, e.digits ++ rest.takeWhile isDecimalDigit⟩
  have hmore : more.Valid := by
    refine ⟨h.mark, h.sign, ?_, ?_⟩
    · exact fun hnil => h.nonempty (List.append_eq_nil_iff.1 hnil).1
    · exact List.forall_mem_append.2 ⟨h.decimal, fun c => List.mem_takeWhile_imp⟩
  have htext : e.text ++ rest = more.text ++ rest.dropWhile isDecimalDigit := by
    simp [more, text]
  rw [skip, htext, Json.read?_of_valid hmore (head?_dropWhile_digits rest)]
  exact (List.dropWhile_suffix _).length_le

/-- Neither digits nor a fraction start with the mark of an exponent. -/
theorem Valid.mark_ne (h : e.Valid) : isDecimalDigit e.mark = false ∧ e.mark ≠ '.' := by
  obtain hmark | hmark := h.mark <;> rw [hmark] <;> decide

theorem Valid.dropWhile_text (h : e.Valid) (rest : List Char) :
    (e.text ++ rest).dropWhile isDecimalDigit = e.text ++ rest :=
  List.dropWhile_cons_of_neg (by rw [h.mark_ne.1]; exact Bool.false_ne_true)

end Exponent

namespace Numeral

/-- The text behind a fraction, if there is one. -/
def skipFraction (afterDigit : Bool) (text : List Char) : List Char :=
  ((readFraction? afterDigit text).map (·.2)).getD text

theorem length_skipFraction_le (afterDigit : Bool) (text : List Char) :
    (skipFraction afterDigit text).length ≤ text.length := by
  cases h : readFraction? afterDigit text with
  | none => simp [skipFraction, h]
  | some found =>
    have happend := congrArg List.length (readFraction?_append h)
    rw [List.length_cons, List.length_append] at happend
    rw [skipFraction, h, Option.map_some, Option.getD_some]
    omega

/-- Digits are read up to a point. -/
theorem takeWhile_dropWhile_point {digits : List Char}
    (hdigits : ∀ c ∈ digits, isDecimalDigit c = true) (rest : List Char) :
    (digits ++ '.' :: rest).takeWhile isDecimalDigit = digits ∧
      (digits ++ '.' :: rest).dropWhile isDecimalDigit = '.' :: rest := by
  refine Json.takeWhile_dropWhile_digits hdigits ?_
  rintro _ ⟨⟩
  decide

theorem readFraction?_point {afterDigit : Bool} {places : List Char}
    (hdigits : ∀ c ∈ places, isDecimalDigit c = true) (h : afterDigit = true ∨ places ≠ [])
    (rest : List Char) :
    readFraction? afterDigit ('.' :: (places ++ rest)) =
      some (places ++ rest.takeWhile isDecimalDigit, rest.dropWhile isDecimalDigit) := by
  have hpoint : afterDigit = true ∨ startsWithDigit 10 (places ++ rest) = true :=
    h.imp_right fun hne => Json.startsWithDigit_append hne hdigits rest
  rw [readFraction?, if_pos ⟨rfl, hpoint⟩, List.takeWhile_append_of_pos hdigits,
    List.dropWhile_append_of_pos hdigits]

theorem readFraction?_exponent {e : Exponent} (h : e.Valid) (afterDigit : Bool)
    (rest : List Char) : readFraction? afterDigit (e.text ++ rest) = none :=
  if_neg fun hpoint => h.mark_ne.2 hpoint.1

/-! ## No longer numeral is proper -/

theorem readRadix?_of_digits {base : Nat} {mark : Char} {digits : List Char}
    (hbase : baseOfMark? mark = some base) (hne : digits ≠ [])
    (hdigits : ∀ c ∈ digits, isDigitIn base c = true) (rest : List Char) :
    readRadix? ('0' :: mark :: (digits ++ rest)) =
      some (.radix base mark (digits ++ rest.takeWhile (isDigitIn base)),
        rest.dropWhile (isDigitIn base)) := by
  have hstarts := Json.startsWithDigit_append hne hdigits rest
  rw [readRadix?, hbase]
  dsimp only
  rw [if_pos ⟨rfl, hstarts⟩, List.takeWhile_append_of_pos hdigits,
    List.dropWhile_append_of_pos hdigits]

theorem baseOfMark?_of_digit {c : Char} (h : isDecimalDigit c = true) : baseOfMark? c = none := by
  have hne (d : Char) (hd : isDecimalDigit d = false) : c ≠ d := by
    rintro rfl
    rw [h] at hd
    cases hd
  rw [baseOfMark?, if_neg, if_neg, if_neg]
  · exact not_or.2 ⟨hne 'b' (by decide), hne 'B' (by decide)⟩
  · exact not_or.2 ⟨hne 'o' (by decide), hne 'O' (by decide)⟩
  · exact not_or.2 ⟨hne 'x' (by decide), hne 'X' (by decide)⟩

section Decimal

variable {whole : List Char} {fraction : Option (List Char)} {exponent : Option Exponent}

theorem length_skip_places_le (h : ∀ e ∈ exponent, e.Valid) (rest : List Char) :
    (Exponent.skip (((exponent.map Exponent.text).getD [] ++ rest).dropWhile
      isDecimalDigit)).length ≤ rest.length := by
  cases exponent with
  | none => exact (Exponent.length_skip_le _).trans (List.dropWhile_suffix _).length_le
  | some e =>
    rw [Option.map_some, Option.getD_some, (h e rfl).dropWhile_text]
    exact (h e rfl).length_skip_le rest

theorem length_skip_whole_le (h : ∀ e ∈ exponent, e.Valid) (afterDigit : Bool)
    (rest : List Char) :
    (Exponent.skip (skipFraction afterDigit (((exponent.map Exponent.text).getD [] ++
      rest).dropWhile isDecimalDigit))).length ≤ rest.length := by
  cases exponent with
  | none =>
    refine (Exponent.length_skip_le _).trans ((length_skipFraction_le _ _).trans ?_)
    exact (List.dropWhile_suffix _).length_le
  | some e =>
    rw [Option.map_some, Option.getD_some, (h e rfl).dropWhile_text, skipFraction,
      readFraction?_exponent (h e rfl)]
    exact (h e rfl).length_skip_le rest

/-- Reading a decimal takes at least the characters of any proper one that stands there. -/
theorem Proper.length_readDecimal_le (h : (decimal whole fraction exponent).Proper)
    (rest : List Char) :
    (readDecimal ((decimal whole fraction exponent).text ++ rest)).2.length ≤ rest.length := by
  obtain ⟨hwhole, hfraction, hsome, hexponent⟩ := h
  have hrest (text : List Char) : (readDecimal text).2 =
      Exponent.skip (skipFraction (!(text.takeWhile isDecimalDigit).isEmpty)
        (text.dropWhile isDecimalDigit)) := rfl
  rw [hrest, Numeral.text, List.append_assoc, List.append_assoc]
  cases fraction with
  | none =>
    rw [Option.map_none, Option.getD_none, List.nil_append, List.dropWhile_append_of_pos hwhole]
    exact length_skip_whole_le hexponent _ rest
  | some places =>
    have hsplit := takeWhile_dropWhile_point hwhole
      (places ++ ((exponent.map Exponent.text).getD [] ++ rest))
    have hpoint : (!whole.isEmpty) = true ∨ places ≠ [] := by simpa using hsome
    rw [Option.map_some, Option.getD_some, List.cons_append, hsplit.1, hsplit.2, skipFraction,
      readFraction?_point (hfraction places rfl) hpoint]
    exact length_skip_places_le hexponent rest

/-- No base mark occurs in a decimal. -/
theorem Proper.baseOfMark?_eq_none (h : (decimal whole fraction exponent).Proper) {c : Char}
    (hc : c ∈ (decimal whole fraction exponent).text) : baseOfMark? c = none := by
  obtain ⟨hwhole, hfraction, -, hexponent⟩ := h
  rw [Numeral.text, List.mem_append, List.mem_append] at hc
  obtain (hc | hc) | hc := hc
  · exact baseOfMark?_of_digit (hwhole c hc)
  · cases fraction with
    | none => cases hc
    | some places =>
      obtain rfl | hc := List.mem_cons.1 hc
      · rfl
      · exact baseOfMark?_of_digit (hfraction places rfl c hc)
  · cases exponent with
    | none => cases hc
    | some e =>
      obtain ⟨hmark, hsign, -, hdigits⟩ := hexponent e rfl
      obtain rfl | hc := List.mem_cons.1 hc
      · obtain hmark | hmark := hmark <;> rw [hmark] <;> rfl
      · obtain hc | hc := List.mem_append.1 hc
        · obtain rfl | rfl := hsign c (Option.mem_toList.1 hc) <;> rfl
        · exact baseOfMark?_of_digit (hdigits c hc)

/-- A decimal in front of which a base mark is read is the zero before that mark at most. -/
theorem Proper.length_le_radix (h : (decimal whole fraction exponent).Proper) {n : Numeral}
    {rest after : List Char}
    (hradix : readRadix? ((decimal whole fraction exponent).text ++ rest) = some (n, after)) :
    (decimal whole fraction exponent).text.length ≤ n.text.length := by
  obtain ⟨-, base, mark, digits, rfl⟩ := proper_of_readRadix? hradix
  -- a second character would be the base mark
  rcases htext : (decimal whole fraction exponent).text with _ | ⟨zero, _ | ⟨second, tail⟩⟩
  · exact Nat.zero_le _
  · exact Nat.succ_le_succ (Nat.zero_le _)
  · have hsecond : baseOfMark? second = none := h.baseOfMark?_eq_none (by simp [htext])
    rw [htext, List.cons_append, List.cons_append, readRadix?, hsecond] at hradix
    cases hradix

end Decimal

/-- No proper numeral that a text starts with is longer than the one that is read. -/
theorem Proper.length_le_read {n : Numeral} (h : n.Proper) (rest : List Char) :
    n.text.length ≤ (read (n.text ++ rest)).1.text.length := by
  have hlength := congrArg List.length (read_append (n.text ++ rest))
  rw [List.length_append, List.length_append] at hlength
  cases n with
  | radix base mark digits =>
    obtain ⟨hbase, hne, hdigits⟩ := h
    have hread := readRadix?_of_digits hbase hne hdigits rest
    have hrest : (read ((radix base mark digits).text ++ rest)).2.length ≤ rest.length := by
      rw [read, Numeral.text, List.cons_append, List.cons_append, hread]
      exact (List.dropWhile_suffix _).length_le
    omega
  | decimal whole fraction exponent =>
    cases hradix : readRadix? ((decimal whole fraction exponent).text ++ rest) with
    | some found =>
      rw [read, hradix]
      exact h.length_le_radix hradix
    | none =>
      have hrest := h.length_readDecimal_le rest
      rw [read, hradix] at hlength ⊢
      rw [Option.getD_none] at hlength ⊢
      omega

/-! ## One numeral for each text -/

section Decimal

variable {whole : List Char} {fraction : Option (List Char)} {exponent : Option Exponent}

/-- Digits are read up to the exponent. -/
theorem takeWhile_dropWhile_exponent {digits : List Char}
    (hdigits : ∀ c ∈ digits, isDecimalDigit c = true) (h : ∀ e ∈ exponent, e.Valid) :
    (digits ++ (exponent.map Exponent.text).getD []).takeWhile isDecimalDigit = digits ∧
      (digits ++ (exponent.map Exponent.text).getD []).dropWhile isDecimalDigit =
        (exponent.map Exponent.text).getD [] := by
  refine Json.takeWhile_dropWhile_digits hdigits fun c hc => ?_
  cases exponent with
  | none => cases hc
  | some e =>
    cases hc
    exact (h e rfl).mark_ne.1

theorem read?_exponent (h : ∀ e ∈ exponent, e.Valid) :
    Exponent.read? ((exponent.map Exponent.text).getD []) = exponent.map fun e => (e, []) := by
  cases exponent with
  | none => rfl
  | some e =>
    have hread : Exponent.read? (e.text ++ []) = some (e, []) :=
      Json.read?_of_valid (h e rfl) (by simp)
    rwa [List.append_nil] at hread

/-- A decimal is not read with a base mark. -/
theorem Proper.readRadix?_eq_none (h : (decimal whole fraction exponent).Proper) :
    readRadix? (decimal whole fraction exponent).text = none := by
  cases hradix : readRadix? (decimal whole fraction exponent).text with
  | none => rfl
  | some found =>
    obtain ⟨n, rest⟩ := found
    obtain ⟨hproper, base, mark, digits, rfl⟩ := proper_of_readRadix? hradix
    have hmem : mark ∈ (decimal whole fraction exponent).text := by
      rw [← readRadix?_append hradix]
      simp [Numeral.text]
    have hmark := h.baseOfMark?_eq_none hmem
    rw [hproper.1] at hmark
    cases hmark

theorem Proper.readDecimal_text (h : (decimal whole fraction exponent).Proper) :
    readDecimal (decimal whole fraction exponent).text =
      (decimal whole fraction exponent, []) := by
  obtain ⟨hwhole, hfraction, hsome, hexponent⟩ := h
  have hread := read?_exponent hexponent
  rw [Numeral.text, List.append_assoc, readDecimal]
  cases fraction with
  | none =>
    have hsplit := takeWhile_dropWhile_exponent hwhole hexponent
    have hnone (afterDigit : Bool) :
        readFraction? afterDigit ((exponent.map Exponent.text).getD []) = none := by
      cases exponent with
      | none => rfl
      | some e => exact if_neg fun hpoint => (hexponent e rfl).mark_ne.2 hpoint.1
    simp only [Option.map_none, Option.getD_none, List.nil_append, hsplit, hnone, hread]
    cases exponent <;> rfl
  | some places =>
    have hsplit := takeWhile_dropWhile_point hwhole
      (places ++ (exponent.map Exponent.text).getD [])
    have hend := takeWhile_dropWhile_exponent (List.forall_mem_nil _) hexponent
    have hpoint : (!whole.isEmpty) = true ∨ places ≠ [] := by simpa using hsome
    have hplaces := readFraction?_point (hfraction places rfl) hpoint
      ((exponent.map Exponent.text).getD [])
    rw [List.nil_append] at hend
    rw [hend.1, hend.2, List.append_nil] at hplaces
    simp only [Option.map_some, Option.getD_some, List.cons_append, hsplit, hplaces, hread]
    cases exponent <;> rfl

end Decimal

/-- The numeral that a text writes is the one that is read from it. -/
theorem Proper.read_text {n : Numeral} (h : n.Proper) : read n.text = (n, []) := by
  cases n with
  | radix base mark digits =>
    obtain ⟨hbase, hne, hdigits⟩ := h
    have hread := readRadix?_of_digits hbase hne hdigits []
    rw [List.append_nil, List.takeWhile_nil, List.append_nil] at hread
    rw [read, Numeral.text, hread]
    rfl
  | decimal whole fraction exponent =>
    rw [read, h.readRadix?_eq_none, Option.getD_none, h.readDecimal_text]

end Numeral

end ScriptLint
