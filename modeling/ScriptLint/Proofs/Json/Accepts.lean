import Mathlib.Data.List.DropRight
import ScriptLint.Proofs.Json.Grammar

/-!
# The reader accepts the grammar

`Json.parse?` gives a text the value `v` exactly if the grammar does
(`parse?_eq_some_iff`), so that no text has two values. Both directions go by induction on the
fuel of the reader: `Reads` and `Sound` collect what a given amount of it suffices for.
-/

namespace ScriptLint.Json

/-! ## White space -/

section Blanks

variable {b text : List Char} {c : Char}

/-- Blanks in front are skipped. -/
theorem skipBlanks_append (hb : Blank b) (text : List Char) :
    skipBlanks (b ++ text) = skipBlanks text :=
  List.dropWhile_append_of_pos hb

/-- Nothing is skipped before a character that is not blank. -/
theorem skipBlanks_cons (hc : isBlank c = false) (text : List Char) :
    skipBlanks (c :: text) = c :: text :=
  List.dropWhile_cons_of_neg (by simp [hc])

theorem skipBlanks_append_cons (hb : Blank b) (hc : isBlank c = false) (text : List Char) :
    skipBlanks (b ++ c :: text) = c :: text := by
  rw [skipBlanks_append hb, skipBlanks_cons hc]

/-- Where blanks have been skipped there are none left to skip. -/
theorem skipBlanks_self (text : List Char) : skipBlanks (skipBlanks text) = skipBlanks text :=
  List.dropWhile_idempotent isBlank text

/-- A text is its white space and what follows it. -/
theorem exists_blank (text : List Char) : ∃ b, Blank b ∧ text = b ++ skipBlanks text :=
  ⟨text.takeWhile isBlank, fun _ => List.mem_takeWhile_imp, List.takeWhile_append_dropWhile.symm⟩

theorem Blank.append (hb : Blank b) (htext : Blank text) : Blank (b ++ text) := fun c hc =>
  (List.mem_append.1 hc).elim (hb c) (htext c)

theorem isBlank_eq_true_iff : isBlank c = true ↔ c = ' ' ∨ c = '\t' ∨ c = '\n' ∨ c = '\r' := by
  simp [isBlank, or_assoc]

/-- White space ends a number. -/
theorem EndsNumber.blank_append (hb : Blank b) (htext : EndsNumber text) :
    EndsNumber (b ++ text) := by
  cases b with
  | nil => exact htext
  | cons c b =>
    intro d hd
    cases hd
    obtain rfl | rfl | rfl | rfl := isBlank_eq_true_iff.1 (hb c (by simp)) <;> decide

/-- No digit is blank. -/
theorem isBlank_of_isDecimalDigit (h : isDecimalDigit c = true) : isBlank c = false := by
  cases hblank : isBlank c with
  | false => rfl
  | true =>
    obtain rfl | rfl | rfl | rfl := isBlank_eq_true_iff.1 hblank <;> revert h <;> decide

/-- A value may be read with or without the blanks before it. -/
theorem readValue_skipBlanks (fuel : Nat) (text : List Char) :
    readValue fuel (skipBlanks text) = readValue fuel text := by
  cases fuel with
  | zero => rw [readValue, readValue]
  | succ fuel => rw [readValue, readValue, skipBlanks_self]

/-- So may the items of a list. -/
theorem readItems_skipBlanks (fuel : Nat) (text : List Char) :
    readItems fuel (skipBlanks text) = readItems fuel text := by
  cases fuel with
  | zero => rw [readItems, readItems]
  | succ fuel => rw [readItems, readItems, readValue_skipBlanks]

/-- So may the fields of an object. -/
theorem readFields_skipBlanks (fuel : Nat) (text : List Char) :
    readFields fuel (skipBlanks text) = readFields fuel text := by
  cases fuel with
  | zero => rw [readFields, readFields]
  | succ fuel => rw [readFields, readFields, skipBlanks_self]

theorem readValue_blank_append (fuel : Nat) (hb : Blank b) (text : List Char) :
    readValue fuel (b ++ text) = readValue fuel text := by
  rw [← readValue_skipBlanks, skipBlanks_append hb, readValue_skipBlanks]

end Blanks

/-! ## What is written by the grammar is read -/

/-- The first character of a value is neither white space nor a closing bracket. -/
theorem Spells.head {v : Json} {t : List Char} (h : Spells v t) :
    ∃ c u, t = c :: u ∧ isBlank c = false ∧ c ≠ ']' ∧ c ≠ '}' := by
  cases h with
  | number h =>
    cases h with
    | unsigned m =>
      obtain ⟨c, u, htext, hdigit⟩ := exists_head m
      refine ⟨c, u, htext, isBlank_of_isDecimalDigit hdigit, ?_, ?_⟩
      · rintro rfl
        revert hdigit
        decide
      · rintro rfl
        revert hdigit
        decide
    | negative m => exact ⟨'-', _, rfl, by decide⟩
  | _ => exact ⟨_, _, rfl, by decide⟩

/-- So is the first character behind the white space of a padded value. -/
theorem Padded.head {v : Json} {t : List Char} (h : Padded v t) (rest : List Char) :
    ∃ c u, skipBlanks (t ++ rest) = c :: u ∧ c ≠ ']' ∧ c ≠ '}' := by
  obtain ⟨hb, h, hb'⟩ := h
  obtain ⟨c, u, rfl, hblank, hne⟩ := h.head
  exact ⟨c, _, by rw [List.append_assoc, List.append_assoc, List.cons_append,
    skipBlanks_append_cons hb hblank], hne⟩

/-- Items do not start with the bracket that closes the list. -/
theorem SpellsItems.head {items : List Json} {t : List Char} (h : SpellsItems items t)
    (rest : List Char) : ∃ c u, skipBlanks (t ++ rest) = c :: u ∧ c ≠ ']' := by
  cases h with
  | one h =>
    obtain ⟨c, u, hskip, hne, -⟩ := h.head rest
    exact ⟨c, u, hskip, hne⟩
  | more h hitems =>
    rw [List.append_assoc]
    obtain ⟨c, u, hskip, hne, -⟩ := h.head _
    exact ⟨c, u, hskip, hne⟩

/-- A field starts with a quotation mark. -/
theorem SpellsField.head {field : String × Json} {t : List Char} (h : SpellsField field t)
    (rest : List Char) : ∃ u, skipBlanks (t ++ rest) = '"' :: u := by
  obtain ⟨hb, -⟩ := h
  exact ⟨_, by rw [List.append_assoc, List.cons_append, skipBlanks_append_cons hb (by decide)]⟩

/-- Fields start with the quotation mark of the first of them. -/
theorem SpellsFields.head {fields : List (String × Json)} {t : List Char}
    (h : SpellsFields fields t) (rest : List Char) : ∃ u, skipBlanks (t ++ rest) = '"' :: u := by
  cases h with
  | one h => exact h.head rest
  | more h hfields =>
    rw [List.append_assoc]
    exact h.head _

/-- If the list is not closed at once, its items are read. -/
theorem readValue_array {fuel : Nat} {text : List Char}
    (h : ∃ c u, skipBlanks text = c :: u ∧ c ≠ ']') :
    readValue (fuel + 1) ('[' :: text) =
      (readItems fuel text).map fun (items, rest) => (.array items, rest) := by
  obtain ⟨c, u, hskip, hne⟩ := h
  rw [readValue, skipBlanks_cons (by decide), ← readItems_skipBlanks]
  simp only [hskip]
  split
  · next heq => exact absurd (List.cons.inj heq).1 hne
  · rfl

/-- If the object has a field, its fields are read. -/
theorem readValue_object {fuel : Nat} {text : List Char} (h : ∃ u, skipBlanks text = '"' :: u) :
    readValue (fuel + 1) ('{' :: text) =
      (readFields fuel text).map fun (fields, rest) => (.object fields, rest) := by
  obtain ⟨u, hskip⟩ := h
  rw [readValue, skipBlanks_cons (by decide), ← readFields_skipBlanks]
  simp only [hskip]
  rfl

/-- A sign or a digit starts a number. -/
theorem readValue_number {fuel : Nat} {c : Char} {text : List Char}
    (h : c = '-' ∨ isDecimalDigit c = true) :
    readValue (fuel + 1) (c :: text) = readNumber (c :: text) := by
  have hblank : isBlank c = false := by
    obtain rfl | hdigit := h
    · decide
    · exact isBlank_of_isDecimalDigit hdigit
  rw [readValue, skipBlanks_cons hblank]
  split
  case h_7 => rfl
  all_goals
    next heq =>
    obtain ⟨rfl, -⟩ := List.cons.inj heq
    exact absurd h (by decide)

/-- A number ends before any character that could not go on with it. -/
theorem endsNumber_cons (c : Char) (text : List Char)
    (h : isDecimalDigit c = false ∧ c ≠ '.' ∧ c ≠ 'e' ∧ c ≠ 'E') : EndsNumber (c :: text) := by
  intro d hd
  cases hd
  exact h

/-- No number is an object. -/
theorem NumberText.ne_object {v : Json} {t : List Char} (h : NumberText v t)
    (fields : List (String × Json)) : v ≠ .object fields := by
  have hmagnitude (m : Magnitude) : (∃ n, m.toJson = .integer n) ∨ ∃ x, m.toJson = .real x := by
    rw [Magnitude.toJson]
    split
    · exact .inl ⟨_, rfl⟩
    · exact .inr ⟨_, rfl⟩
  cases h with
  | unsigned m => obtain ⟨n, hn⟩ | ⟨x, hx⟩ := hmagnitude m <;> simp [*]
  | negative m => obtain ⟨n, hn⟩ | ⟨x, hx⟩ := hmagnitude m <;> simp [*, negate]

/-- What the given fuel suffices to read. -/
structure Reads (fuel : Nat) : Prop where
  value : ∀ {v t rest}, Spells v t → EndsNumber rest → 2 * t.length ≤ fuel →
    readValue fuel (t ++ rest) = some (v, rest)
  items : ∀ {items t rest}, SpellsItems items t → 2 * t.length < fuel →
    readItems fuel (t ++ ']' :: rest) = some (items, rest)
  fields : ∀ {fields t rest}, SpellsFields fields t → 2 * t.length < fuel →
    readFields fuel (t ++ '}' :: rest) = some (fields, rest)

namespace Reads

variable {fuel : Nat} {rest : List Char}

/-- A padded value is read up to the white space behind it. -/
theorem padded (ih : Reads fuel) {v : Json} {t : List Char} (h : Padded v t)
    (hrest : EndsNumber rest) (hfuel : 2 * t.length ≤ fuel) :
    ∃ b, Blank b ∧ readValue fuel (t ++ rest) = some (v, b ++ rest) := by
  obtain @⟨_, b, t, b', hb, h, hb'⟩ := h
  refine ⟨b', hb', ?_⟩
  rw [List.append_assoc, readValue_blank_append fuel hb, List.append_assoc]
  refine ih.value h (hrest.blank_append hb') ?_
  simp only [List.length_append] at hfuel
  omega

/-- An object is read up to its closing bracket, whatever follows it. -/
theorem object_step (ih : Reads fuel) {fields : List (String × Json)} {t : List Char}
    (h : Spells (.object fields) t) (hfuel : 2 * t.length ≤ fuel + 1) :
    readValue (fuel + 1) (t ++ rest) = some (.object fields, rest) := by
  generalize hv : Json.object fields = v at h
  cases h with
  | emptyObject hb =>
    rw [List.cons_append, List.append_assoc, List.singleton_append, readValue,
      skipBlanks_cons (by decide)]
    simp only [skipBlanks_append_cons hb (show isBlank '}' = false by decide)]
  | object h =>
    rw [List.cons_append, List.append_assoc, readValue_object (h.head _), List.singleton_append,
      ih.fields h (by simp at hfuel; omega)]
    rfl
  | number h => exact absurd hv.symm (h.ne_object fields)
  | _ => cases hv

/-- A value is read with one more round of fuel than its items or fields. -/
theorem value_step (ih : Reads fuel) {v : Json} {t : List Char} (h : Spells v t)
    (hrest : EndsNumber rest) (hfuel : 2 * t.length ≤ fuel + 1) :
    readValue (fuel + 1) (t ++ rest) = some (v, rest) := by
  cases h with
  | null | boolTrue | boolFalse =>
    rw [readValue, List.cons_append, skipBlanks_cons (by decide)]
    rfl
  | number h =>
    rw [← readNumber_of_text h hrest]
    cases h with
    | unsigned m =>
      obtain ⟨c, u, htext, hdigit⟩ := exists_head m
      rw [htext, List.cons_append, readValue_number (.inr hdigit)]
    | negative m => rw [List.cons_append, readValue_number (.inl rfl)]
  | @string cs t h =>
    have hread : readString (t ++ '"' :: rest) = some (cs, rest) :=
      readString_eq_some_iff.2 ⟨t, h, rfl⟩
    rw [List.cons_append, List.append_assoc, List.singleton_append, readValue,
      skipBlanks_cons (by decide)]
    simp only [hread]
    rfl
  | emptyArray hb =>
    rw [List.cons_append, List.append_assoc, List.singleton_append, readValue,
      skipBlanks_cons (by decide)]
    simp only [skipBlanks_append_cons hb (show isBlank ']' = false by decide)]
  | emptyObject hb => exact ih.object_step (.emptyObject hb) hfuel
  | array h =>
    rw [List.cons_append, List.append_assoc, readValue_array (h.head _), List.singleton_append,
      ih.items h (by simp at hfuel; omega)]
    rfl
  | object h => exact ih.object_step (.object h) hfuel

/-- Items are read with one more round of fuel than each of them and the rest of them. -/
theorem items_step (ih : Reads fuel) {items : List Json} {t : List Char} (h : SpellsItems items t)
    (hfuel : 2 * t.length < fuel + 1) :
    readItems (fuel + 1) (t ++ ']' :: rest) = some (items, rest) := by
  cases h with
  | one h =>
    obtain ⟨b, hb, hread⟩ := ih.padded h (endsNumber_cons ']' rest (by decide)) (by omega)
    rw [readItems, hread]
    simp only [skipBlanks_append_cons hb (show isBlank ']' = false by decide)]
  | @more v items t u h hitems =>
    simp only [List.length_append, List.length_cons] at hfuel
    obtain ⟨b, hb, hread⟩ := ih.padded h (endsNumber_cons ',' _ (by decide)) (by omega)
    rw [List.append_assoc, List.cons_append, readItems, hread]
    simp only [skipBlanks_append_cons hb (show isBlank ',' = false by decide)]
    rw [ih.items hitems (by omega)]
    rfl

/-- The parts of a field are read one after the other. -/
theorem field_parts (ih : Reads fuel) {field : String × Json} {t : List Char}
    (h : SpellsField field t) (hrest : EndsNumber rest) (hfuel : 2 * t.length < fuel + 1) :
    ∃ cs afterQuote afterKey afterColon b, field.1 = String.ofList cs ∧ Blank b ∧
      skipBlanks (t ++ rest) = '"' :: afterQuote ∧ readString afterQuote = some (cs, afterKey) ∧
      skipBlanks afterKey = ':' :: afterColon ∧
      readValue fuel afterColon = some (field.2, b ++ rest) := by
  obtain @⟨cs, v, b, k, b', t, hb, hkey, hb', h⟩ := h
  simp only [List.length_append, List.length_cons] at hfuel
  obtain ⟨b'', hb'', hread⟩ := ih.padded h hrest (by omega)
  refine ⟨cs, k ++ '"' :: (b' ++ ':' :: (t ++ rest)), b' ++ ':' :: (t ++ rest), _, b'', rfl, hb'',
    ?_, readString_eq_some_iff.2 ⟨k, hkey, rfl⟩, ?_, hread⟩
  · rw [List.append_assoc, List.cons_append, skipBlanks_append_cons hb (by decide)]
    simp
  · exact skipBlanks_append_cons hb' (by decide) _

/-- Fields are read with one more round of fuel than each of them and the rest of them. -/
theorem fields_step (ih : Reads fuel) {fields : List (String × Json)} {t : List Char}
    (h : SpellsFields fields t) (hfuel : 2 * t.length < fuel + 1) :
    readFields (fuel + 1) (t ++ '}' :: rest) = some (fields, rest) := by
  cases h with
  | @one field t h =>
    obtain ⟨cs, _, _, _, b, hname, hb, hquote, hkey, hcolon, hread⟩ :=
      ih.field_parts h (endsNumber_cons '}' rest (by decide)) hfuel
    rw [readFields, hquote]
    simp only [hkey, hcolon, hread, ← hname,
      skipBlanks_append_cons hb (show isBlank '}' = false by decide)]
  | @more field fields t u h hfields =>
    simp only [List.length_append, List.length_cons] at hfuel
    obtain ⟨cs, _, _, _, b, hname, hb, hquote, hkey, hcolon, hread⟩ :=
      ih.field_parts h (endsNumber_cons ',' (u ++ '}' :: rest) (by decide)) (by omega)
    rw [List.append_assoc, List.cons_append, readFields, hquote]
    simp only [hkey, hcolon, hread, ← hname,
      skipBlanks_append_cons hb (show isBlank ',' = false by decide)]
    rw [ih.fields hfields (by omega)]
    rfl

end Reads

/-- Enough fuel suffices for all texts of the grammar. -/
theorem reads (fuel : Nat) : Reads fuel := by
  induction fuel with
  | zero =>
    refine ⟨fun h _ hfuel => ?_, fun _ hfuel => ?_, fun _ hfuel => ?_⟩
    · obtain ⟨c, u, rfl, -⟩ := h.head
      simp at hfuel
    · omega
    · omega
  | succ fuel ih => exact ⟨ih.value_step, ih.items_step, ih.fields_step⟩

/-! ## What is read is written by the grammar -/

/-- What the given fuel reads has the form that the grammar asks for. -/
structure Sound (fuel : Nat) : Prop where
  value : ∀ {text v rest}, readValue fuel text = some (v, rest) →
    ∃ b t, Blank b ∧ Spells v t ∧ text = b ++ (t ++ rest)
  items : ∀ {text items rest}, readItems fuel text = some (items, rest) →
    ∃ t, SpellsItems items t ∧ text = t ++ ']' :: rest
  fields : ∀ {text fields rest}, readFields fuel text = some (fields, rest) →
    ∃ t, SpellsFields fields t ∧ text = t ++ '}' :: rest

/-- Blanks may be put before a value. -/
theorem Padded.blank_append {v : Json} {b t : List Char} (hb : Blank b) (h : Padded v t) :
    Padded v (b ++ t) := by
  obtain ⟨hb₁, h, hb₂⟩ := h
  rw [← List.append_assoc]
  exact ⟨hb.append hb₁, h, hb₂⟩

/-- Blanks may be put before items. -/
theorem SpellsItems.blank_append {items : List Json} {b t : List Char} (hb : Blank b)
    (h : SpellsItems items t) : SpellsItems items (b ++ t) := by
  cases h with
  | one h => exact .one (h.blank_append hb)
  | more h hitems =>
    rw [← List.append_assoc]
    exact .more (h.blank_append hb) hitems

theorem SpellsField.blank_append {field : String × Json} {b t : List Char} (hb : Blank b)
    (h : SpellsField field t) : SpellsField field (b ++ t) := by
  obtain ⟨hb₁, hkey, hb₂, h⟩ := h
  rw [← List.append_assoc]
  exact ⟨hb.append hb₁, hkey, hb₂, h⟩

/-- Blanks may be put before fields. -/
theorem SpellsFields.blank_append {fields : List (String × Json)} {b t : List Char} (hb : Blank b)
    (h : SpellsFields fields t) : SpellsFields fields (b ++ t) := by
  cases h with
  | one h => exact .one (h.blank_append hb)
  | more h hfields =>
    rw [← List.append_assoc]
    exact .more (h.blank_append hb) hfields

namespace Sound

variable {fuel : Nat} {text rest : List Char}

/-- A value with the white space on both sides of it. -/
theorem padded (ih : Sound fuel) {v : Json} (h : readValue fuel text = some (v, rest)) :
    ∃ t, Padded v t ∧ text = t ++ skipBlanks rest := by
  obtain ⟨b, t, hb, ht, rfl⟩ := ih.value h
  obtain ⟨b', hb', hrest⟩ := exists_blank rest
  refine ⟨_, ⟨hb, ht, hb'⟩, ?_⟩
  rw [List.append_assoc, List.append_assoc, ← hrest]

/-- The value that is read with one more round of fuel is spelled by what was taken, behind blanks.
-/
theorem value_step (ih : Sound fuel) {v : Json} (h : readValue (fuel + 1) text = some (v, rest)) :
    ∃ b t, Blank b ∧ Spells v t ∧ text = b ++ (t ++ rest) := by
  obtain ⟨b, hb, htext⟩ := exists_blank text
  -- the reader decides by the first character behind the white space
  suffices ∃ t, Spells v t ∧ skipBlanks text = t ++ rest by
    obtain ⟨t, ht, hskip⟩ := this
    exact ⟨b, t, hb, ht, by rw [← hskip, ← htext]⟩
  rw [readValue] at h
  generalize skipBlanks text = text at *
  split at h
  · cases h
    exact ⟨_, .null, rfl⟩
  · cases h
    exact ⟨_, .boolTrue, rfl⟩
  · cases h
    exact ⟨_, .boolFalse, rfl⟩
  · obtain ⟨⟨cs, after⟩, hread, heq⟩ := Option.map_eq_some_iff.1 h
    cases heq
    obtain ⟨t, ht, rfl⟩ := readString_eq_some_iff.1 hread
    exact ⟨_, .string ht, by simp⟩
  · next after =>
    obtain ⟨b', hb', hafter⟩ := exists_blank after
    rw [hafter]
    split at h
    · next hclose =>
      cases h
      exact ⟨_, .emptyArray hb', by simp [hclose]⟩
    · obtain ⟨⟨items, last⟩, hread, heq⟩ := Option.map_eq_some_iff.1 h
      cases heq
      obtain ⟨t, ht, hitems⟩ := ih.items hread
      exact ⟨_, .array (ht.blank_append hb'), by simp [hitems]⟩
  · next after =>
    obtain ⟨b', hb', hafter⟩ := exists_blank after
    rw [hafter]
    split at h
    · next hclose =>
      cases h
      exact ⟨_, .emptyObject hb', by simp [hclose]⟩
    · obtain ⟨⟨fields, last⟩, hread, heq⟩ := Option.map_eq_some_iff.1 h
      cases heq
      obtain ⟨t, ht, hfields⟩ := ih.fields hread
      exact ⟨_, .object (ht.blank_append hb'), by simp [hfields]⟩
  · obtain ⟨t, ht, rfl⟩ := readNumber_sound h
    exact ⟨t, .number ht, rfl⟩

/-- The items that are read with one more round of fuel are spelled by what was taken. -/
theorem items_step (ih : Sound fuel) {items : List Json}
    (h : readItems (fuel + 1) text = some (items, rest)) :
    ∃ t, SpellsItems items t ∧ text = t ++ ']' :: rest := by
  rw [readItems] at h
  split at h
  · cases h
  · next v after hread =>
    obtain ⟨t, ht, rfl⟩ := ih.padded hread
    split at h
    · next hclose =>
      cases h
      exact ⟨t, .one ht, by rw [hclose]⟩
    · next after' hcomma =>
      obtain ⟨⟨items, last⟩, hmore, heq⟩ := Option.map_eq_some_iff.1 h
      cases heq
      obtain ⟨u, hu, rfl⟩ := ih.items hmore
      exact ⟨_, .more ht hu, by simp [hcomma]⟩
    · cases h

/-- The fields that are read with one more round of fuel are spelled by what was taken. -/
theorem fields_step (ih : Sound fuel) {fields : List (String × Json)}
    (h : readFields (fuel + 1) text = some (fields, rest)) :
    ∃ t, SpellsFields fields t ∧ text = t ++ '}' :: rest := by
  obtain ⟨b, hb, htext⟩ := exists_blank text
  rw [readFields] at h
  split at h
  · next after hquote =>
    rw [hquote] at htext
    split at h
    · cases h
    · next key afterKey hkey =>
      obtain ⟨k, hk, rfl⟩ := readString_eq_some_iff.1 hkey
      obtain ⟨b', hb', hafterKey⟩ := exists_blank afterKey
      split at h
      · next afterColon hcolon =>
        split at h
        · cases h
        · next v afterValue hread =>
          obtain ⟨t, ht, rfl⟩ := ih.padded hread
          have hfield : SpellsField (String.ofList key, v)
              (b ++ '"' :: (k ++ '"' :: (b' ++ ':' :: t))) := ⟨hb, hk, hb', ht⟩
          rw [hafterKey, hcolon] at htext
          dsimp only at h
          split at h
          · next hclose =>
            cases h
            exact ⟨_, .one hfield, by simp [htext, hclose]⟩
          · next hcomma =>
            obtain ⟨⟨fields, last⟩, hmore, heq⟩ := Option.map_eq_some_iff.1 h
            cases heq
            obtain ⟨u, hu, rfl⟩ := ih.fields hmore
            exact ⟨_, .more hfield hu, by simp [htext, hcomma]⟩
          · cases h
      · cases h
  · cases h

end Sound

/-- What is read with any fuel is spelled by what was taken. The induction is on the fuel. -/
theorem sound (fuel : Nat) : Sound fuel := by
  induction fuel with
  | zero =>
    refine ⟨fun h => ?_, fun h => ?_, fun h => ?_⟩
    · simp [readValue] at h
    · simp [readItems] at h
    · simp [readFields] at h
  | succ fuel ih => exact ⟨ih.value_step, ih.items_step, ih.fields_step⟩

/-! ## Texts and values -/

/-- A text is read as a value exactly if the grammar gives it that value. -/
theorem parse?_eq_some_iff {source : String} {v : Json} :
    parse? source = some v ↔ Padded v source.toList := by
  rw [parse?]
  constructor
  · intro h
    split at h
    · next w rest hread =>
      obtain ⟨t, ht, htext⟩ := (sound _).padded hread
      split at h
      · next hend =>
        cases h
        rw [List.isEmpty_iff] at hend
        rwa [htext, hend, List.append_nil]
      · cases h
    · cases h
  · intro h
    have hend : EndsNumber [] := fun c hc => by cases hc
    obtain ⟨b, hb, hread⟩ := (reads (2 * source.toList.length + 2)).padded h hend (by omega)
    rw [List.append_nil, List.append_nil] at hread
    rw [hread]
    have hskip : skipBlanks b = [] := by simpa [skipBlanks] using skipBlanks_append hb []
    simp [hskip]

/-- No text has two values. -/
theorem Padded.unique {v w : Json} {t : List Char} (hv : Padded v t) (hw : Padded w t) : v = w := by
  rw [← String.toList_ofList (l := t)] at hv hw
  exact Option.some.inj ((parse?_eq_some_iff.2 hv).symm.trans (parse?_eq_some_iff.2 hw))

/-- What follows an object in a text that has a value is white space. -/
theorem Padded.blank_of_object {fields : List (String × Json)} {v : Json} {t rest : List Char}
    (h : Padded (.object fields) t) (hv : Padded v (t ++ rest)) : Blank rest := by
  obtain @⟨_, b, t, b', hb, h, hb'⟩ := h
  rw [← String.toList_ofList (l := b ++ (t ++ b') ++ rest)] at hv
  have hparse := parse?_eq_some_iff.2 hv
  have hread : readValue (2 * (b ++ (t ++ b') ++ rest).length + 2) (b ++ (t ++ b') ++ rest) =
      some (.object fields, b' ++ rest) := by
    rw [List.append_assoc, readValue_blank_append _ hb, List.append_assoc]
    refine (reads _).object_step h ?_
    simp only [List.length_append]
    omega
  rw [parse?, String.toList_ofList, hread] at hparse
  dsimp only at hparse
  split at hparse
  · next hend =>
    rw [skipBlanks_append hb', List.isEmpty_iff] at hend
    obtain ⟨blanks, hblanks, hrest⟩ := exists_blank rest
    rwa [hrest, hend, List.append_nil]
  · cases hparse

end ScriptLint.Json
