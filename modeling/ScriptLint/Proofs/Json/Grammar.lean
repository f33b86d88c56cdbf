import Mathlib.Data.List.Basic
import Mathlib.Data.List.TakeWhile
import ScriptLint.Json.Reader
import ScriptLint.Token.Lossless

/-!
# The grammar of JSON texts

`Spells v t` says that `t` is a JSON text of the value `v` without white space around it, and
`Padded v t` that it may have some. The relations follow the productions of the format: a string
is spelled character by character, a number has no leading zeros, and the items of an array and
the fields of an object are separated by single commas.

The functions that read strings and numbers follow these productions exactly
(`readString_eq_some_iff`, `readNumber_of_text`, `readNumber_sound`).
-/

namespace ScriptLint

/-- An exponent that has a mark, a sign of either kind or none, and digits. -/
structure Exponent.Valid (e : Exponent) : Prop where
  mark : e.mark = 'e' ∨ e.mark = 'E'
  sign : ∀ c ∈ e.sign, c = '+' ∨ c = '-'
  nonempty : e.digits ≠ []
  decimal : ∀ c ∈ e.digits, isDecimalDigit c = true

namespace Json

/-! ## Strings -/

/-- Four hexadecimal digits. -/
structure Hex4 where
  digits : List Char
  length_eq : digits.length = 4
  hexadecimal : digits.all (isDigitIn 16) = true

/-- The number that the digits denote. -/
def Hex4.code (h : Hex4) : Nat := numberOfDigits 16 h.digits

/-- The escapes of one letter, each with the character that it stands for. -/
def shortEscapes : List (Char × Char) :=
  [('"', '"'), ('\\', '\\'), ('/', '/'), ('b', '\x08'), ('f', '\x0c'), ('n', '\n'), ('r', '\r'),
    ('t', '\t')]

/-- The ways in which a character is written in a string. -/
inductive CharText : Char → List Char → Prop where
  | plain {c : Char} (hquote : c ≠ '"') (hbackslash : c ≠ '\\') (hcontrol : 0x20 ≤ c.toNat) :
    CharText c [c]
  | short {letter c : Char} (h : (letter, c) ∈ shortEscapes) : CharText c ['\\', letter]
  | unit (h : Hex4) (hunit : ¬ (0xD800 ≤ h.code ∧ h.code < 0xE000)) :
    CharText (Char.ofNat h.code) ('\\' :: 'u' :: h.digits)
  | pair (high low : Hex4) (hhigh : 0xD800 ≤ high.code ∧ high.code < 0xDC00)
    (hlow : 0xDC00 ≤ low.code ∧ low.code < 0xE000) :
    CharText (Char.ofNat (0x10000 + (high.code - 0xD800) * 0x400 + (low.code - 0xDC00)))
      ('\\' :: 'u' :: (high.digits ++ '\\' :: 'u' :: low.digits))

/-- The ways in which the characters of a string are written between its quotes. -/
inductive CharsText : List Char → List Char → Prop where
  | nil : CharsText [] []
  | cons {c : Char} {cs t u : List Char} (hc : CharText c t) (hcs : CharsText cs u) :
    CharsText (c :: cs) (t ++ u)

/-- Four hexadecimal digits are read where four stand. -/
theorem readHex4_eq_some_iff {text rest : List Char} {code : Nat} :
    readHex4 text = some (code, rest) ↔ ∃ h : Hex4, h.code = code ∧ text = h.digits ++ rest := by
  constructor
  · intro h
    rcases text with _ | ⟨a, _ | ⟨b, _ | ⟨c, _ | ⟨d, text⟩⟩⟩⟩
    case cons.cons.cons.cons =>
      simp only [readHex4] at h
      split at h
      · next hhex =>
        cases h
        exact ⟨⟨[a, b, c, d], rfl, hhex⟩, rfl, rfl⟩
      · cases h
    all_goals simp [readHex4] at h
  · rintro ⟨⟨digits, hlength, hhex⟩, rfl, rfl⟩
    obtain ⟨a, b, c, d, rfl⟩ := List.length_eq_four.1 hlength
    simp [readHex4, hhex, Hex4.code]

/-- The digits of a code are read as that code. -/
theorem readHex4_digits (h : Hex4) (rest : List Char) :
    readHex4 (h.digits ++ rest) = some (h.code, rest) :=
  readHex4_eq_some_iff.2 ⟨h, rfl, rfl⟩

/-- An escape with `u` is one code, or two that make a pair. -/
theorem readUnicode_eq_some_iff {text rest : List Char} {c : Char} :
    readUnicode text = some (c, rest) ↔
      ∃ t, CharText c ('\\' :: 'u' :: t) ∧ text = t ++ rest := by
  constructor
  · intro h
    rw [readUnicode] at h
    split at h
    · cases h
    · next code after hhex =>
      obtain ⟨digits, rfl, rfl⟩ := readHex4_eq_some_iff.1 hhex
      split at h
      · next hhigh =>
        split at h
        · next after =>
          split at h
          · next low last hlast =>
            obtain ⟨digits', rfl, rfl⟩ := readHex4_eq_some_iff.1 hlast
            split at h
            · next hlow =>
              obtain ⟨rfl, rfl⟩ := Prod.mk.inj (Option.some.inj h)
              exact ⟨_, .pair digits digits' hhigh hlow, by simp⟩
            · cases h
          · cases h
        · cases h
      · next hhigh =>
        split at h
        · cases h
        · next hlow =>
          cases h
          exact ⟨_, .unit digits (by omega), rfl⟩
  · rintro ⟨t, htext, rfl⟩
    cases htext with
    | short h => simp [shortEscapes] at h
    | unit h hunit =>
      rw [readUnicode, readHex4_digits]
      dsimp only
      rw [if_neg (by omega), if_neg (by omega)]
    | pair high low hhigh hlow =>
      rw [List.append_assoc, readUnicode, readHex4_digits]
      dsimp only [List.cons_append]
      rw [if_pos hhigh]
      simp [readHex4_digits, hlow]

/-- An escape is read where one of the grammar stands, and as its character. -/
theorem readEscape_eq_some_iff {text rest : List Char} {c : Char} :
    readEscape text = some (c, rest) ↔ ∃ t, CharText c ('\\' :: t) ∧ text = t ++ rest := by
  constructor
  · intro h
    cases text with
    | nil => simp [readEscape] at h
    | cons letter text =>
      by_cases hunicode : letter = 'u'
      · subst hunicode
        obtain ⟨t, ht, rfl⟩ := readUnicode_eq_some_iff.1 (show readUnicode text = _ from h)
        exact ⟨'u' :: t, ht, rfl⟩
      · have hshort : (letter, c) ∈ shortEscapes ∧ text = rest := by
          simp only [readEscape, hunicode, if_false] at h
          repeat' split at h
          all_goals cases h
          · next hself => obtain rfl | rfl | rfl := hself <;> simp [shortEscapes]
          all_goals simp_all [shortEscapes]
        exact ⟨[letter], .short hshort.1, by rw [hshort.2]; rfl⟩
  · rintro ⟨t, htext, rfl⟩
    cases htext with
    | plain _ hbackslash => exact absurd rfl hbackslash
    | short h =>
      simp only [shortEscapes, List.mem_cons, Prod.mk.injEq, List.not_mem_nil, or_false] at h
      obtain ⟨rfl, rfl⟩ | ⟨rfl, rfl⟩ | ⟨rfl, rfl⟩ | ⟨rfl, rfl⟩ | ⟨rfl, rfl⟩ | ⟨rfl, rfl⟩ |
        ⟨rfl, rfl⟩ | ⟨rfl, rfl⟩ := h <;> rfl
    | unit h hunit => exact readUnicode_eq_some_iff.2 ⟨_, .unit h hunit, rfl⟩
    | pair high low hhigh hlow =>
      exact readUnicode_eq_some_iff.2 ⟨_, .pair high low hhigh hlow, rfl⟩

/-- A character that stands for itself is read as itself. -/
theorem readString_plain {c : Char} {text cs rest : List Char} (hquote : c ≠ '"')
    (hbackslash : c ≠ '\\') (hcontrol : 0x20 ≤ c.toNat)
    (h : readString text = some (cs, rest)) : readString (c :: text) = some (c :: cs, rest) := by
  rw [readString, if_neg hquote, if_neg hbackslash, if_neg (Nat.not_lt.2 hcontrol), h]
  rfl

/-- An escape is read as the character for which it stands. -/
theorem readString_escape {c : Char} {text after cs rest : List Char}
    (hescape : readEscape text = some (c, after)) (h : readString after = some (cs, rest)) :
    readString ('\\' :: text) = some (c :: cs, rest) := by
  rw [readString, if_neg (by decide), if_pos rfl]
  split
  · next d after' heq =>
    obtain ⟨rfl, rfl⟩ := Prod.mk.inj (Option.some.inj (heq.symm.trans hescape))
    rw [h]
    rfl
  · next heq =>
    rw [hescape] at heq
    cases heq

/-- A string is read exactly if it is written by the rules, up to its closing quote. -/
theorem readString_eq_some_iff {text cs rest : List Char} :
    readString text = some (cs, rest) ↔ ∃ t, CharsText cs t ∧ text = t ++ '"' :: rest := by
  constructor
  · intro h
    fun_induction readString text generalizing cs with
    | case1 => cases h
    | case2 text =>
      cases h
      exact ⟨[], .nil, rfl⟩
    | case3 text c after hescape _ ih =>
      obtain ⟨⟨cs, last⟩, hread, heq⟩ := Option.map_eq_some_iff.1 h
      cases heq
      obtain ⟨t, hc, rfl⟩ := readEscape_eq_some_iff.1 hescape
      obtain ⟨u, hcs, rfl⟩ := ih hread
      exact ⟨_, .cons hc hcs, by simp⟩
    | case4 => cases h
    | case5 => cases h
    | case6 c text hquote hbackslash hcontrol ih =>
      obtain ⟨⟨cs, last⟩, hread, heq⟩ := Option.map_eq_some_iff.1 h
      cases heq
      obtain ⟨u, hcs, rfl⟩ := ih hread
      exact ⟨_, .cons (.plain hquote hbackslash (Nat.le_of_not_lt hcontrol)) hcs, rfl⟩
  · rintro ⟨t, htext, rfl⟩
    induction htext with
    | nil => simp [readString]
    | @cons c cs t u hc hcs ih =>
      rw [List.append_assoc]
      by_cases hescaped : ∃ t', t = '\\' :: t'
      · obtain ⟨t', rfl⟩ := hescaped
        exact readString_escape (readEscape_eq_some_iff.2 ⟨t', hc, rfl⟩) ih
      · cases hc with
        | plain hquote hbackslash hcontrol => exact readString_plain hquote hbackslash hcontrol ih
        | _ => exact absurd ⟨_, rfl⟩ hescaped

/-! ## Numbers -/

/-- What may follow a number: nothing that the number could go on with. -/
def EndsNumber (rest : List Char) : Prop :=
  ∀ c ∈ rest.head?, isDecimalDigit c = false ∧ c ≠ '.' ∧ c ≠ 'e' ∧ c ≠ 'E'

/-- A number without its sign. No point is written if there are no places. -/
structure Magnitude where
  whole : List Char
  places : List Char
  exponent : Option Exponent
  whole_decimal : ∀ c ∈ whole, isDecimalDigit c = true
  /-- A zero leads only if it stands alone. -/
  whole_leading : whole = ['0'] ∨ (whole ≠ [] ∧ whole.head? ≠ some '0')
  places_decimal : ∀ c ∈ places, isDecimalDigit c = true
  exponent_valid : ∀ e ∈ exponent, e.Valid

namespace Magnitude

/-- The text of a number. -/
def text (m : Magnitude) : List Char :=
  m.whole ++ ((if m.places = [] then [] else '.' :: m.places) ++
    (m.exponent.map Exponent.text).getD [])

/-- The value of a number, which is an integer if it has neither places nor an exponent. -/
def toJson (m : Magnitude) : Json :=
  if m.places = [] ∧ m.exponent = none then .integer (numberOfDigits 10 m.whole)
  else
    .real (.ofScientific (numberOfDigits 10 (m.whole ++ m.places))
      ((m.exponent.map Exponent.power).getD 0 - Int.ofNat m.places.length))

end Magnitude

/-- The texts of numbers. -/
inductive NumberText : Json → List Char → Prop where
  | unsigned (m : Magnitude) : NumberText m.toJson m.text
  | negative (m : Magnitude) : NumberText m.toJson.negate ('-' :: m.text)

/-- Digits are read up to the first character that is none. -/
theorem takeWhile_dropWhile_digits {digits rest : List Char}
    (hdigits : ∀ c ∈ digits, isDecimalDigit c = true)
    (hrest : ∀ c ∈ rest.head?, isDecimalDigit c = false) :
    (digits ++ rest).takeWhile isDecimalDigit = digits ∧
      (digits ++ rest).dropWhile isDecimalDigit = rest := by
  rw [List.takeWhile_append_of_pos hdigits, List.dropWhile_append_of_pos hdigits]
  cases rest with
  | nil => simp
  | cons c rest =>
    have hc := hrest c rfl
    simp [hc]

/-- A number that has digits starts with one. -/
theorem startsWithDigit_append {base : Nat} {digits : List Char} (hne : digits ≠ [])
    (hdigits : ∀ c ∈ digits, isDigitIn base c = true) (rest : List Char) :
    startsWithDigit base (digits ++ rest) = true := by
  obtain ⟨c, digits, rfl⟩ := List.exists_cons_of_ne_nil hne
  exact hdigits c (by simp)

section Complete

variable (m : Magnitude) {rest : List Char}

/-- The whole part is read up to the first character that is no digit. -/
theorem readWhole_of_whole (hrest : ∀ c ∈ rest.head?, isDecimalDigit c = false) :
    readWhole (m.whole ++ rest) = some (m.whole, rest) := by
  obtain hzero | ⟨hne, hhead⟩ := m.whole_leading
  · rw [hzero]
    rfl
  · obtain ⟨c, digits, hwhole⟩ := List.exists_cons_of_ne_nil hne
    have hsplit := takeWhile_dropWhile_digits m.whole_decimal hrest
    have hdigit := m.whole_decimal c (by simp [hwhole])
    rw [hwhole] at hhead hsplit ⊢
    rw [List.cons_append] at hsplit ⊢
    rw [readWhole, if_neg (by simpa using hhead), if_pos hdigit, hsplit.1, hsplit.2]

/-- The places behind the point are read with it, and none are read where no point stands. -/
theorem readPlaces_of_places (hrest : ∀ c ∈ rest.head?, isDecimalDigit c = false ∧ c ≠ '.') :
    readPlaces ((if m.places = [] then [] else '.' :: m.places) ++ rest) =
      some (m.places, rest) := by
  split
  · next hnone =>
    rw [hnone]
    cases rest with
    | nil => rfl
    | cons c rest => rw [List.nil_append, readPlaces, if_neg (hrest c rfl).2]
  · next hsome =>
    have hsplit := takeWhile_dropWhile_digits m.places_decimal fun c hc => (hrest c hc).1
    rw [List.cons_append, readPlaces, if_pos rfl,
      if_pos (startsWithDigit_append hsome m.places_decimal rest), hsplit.1, hsplit.2]

/-- A power of the grammar is read whole. -/
theorem read?_of_valid {e : Exponent} (h : e.Valid)
    (hrest : ∀ c ∈ rest.head?, isDecimalDigit c = false) :
    Exponent.read? (e.text ++ rest) = some (e, rest) := by
  obtain ⟨mark, sign, digits⟩ := e
  obtain ⟨hmark, hsign, hne, hdigits⟩ := h
  have hreadSign :
      Exponent.readSign (sign.toList ++ (digits ++ rest)) = (sign, digits ++ rest) := by
    cases sign with
    | some c => exact if_pos (hsign c rfl)
    | none =>
      obtain ⟨c, digits, rfl⟩ := List.exists_cons_of_ne_nil hne
      have hdigit := hdigits c (by simp)
      refine if_neg ?_
      rintro (rfl | rfl) <;> revert hdigit <;> decide
  have hsplit := takeWhile_dropWhile_digits hdigits hrest
  rw [Exponent.text, List.cons_append, List.append_assoc, Exponent.read?, if_pos hmark, hreadSign]
  dsimp only
  rw [if_pos (startsWithDigit_append hne hdigits rest), hsplit.1, hsplit.2]

/-- A power is read where one stands, and what ends the number starts none. -/
theorem readPower_of_exponent (hrest : EndsNumber rest) :
    readPower ((m.exponent.map Exponent.text).getD [] ++ rest) = some (m.exponent, rest) := by
  cases hexponent : m.exponent with
  | some e =>
    have hread := read?_of_valid (m.exponent_valid e hexponent) fun c hc => (hrest c hc).1
    rw [Option.map_some, Option.getD_some, readPower, hread]
  | none =>
    have hhead : ¬ (rest.head? = some 'e' ∨ rest.head? = some 'E') := by
      rintro (h | h)
      · exact (hrest _ h).2.2.1 rfl
      · exact (hrest _ h).2.2.2 rfl
    have hread : Exponent.read? rest = none := by
      cases rest with
      | nil => rfl
      | cons c rest => exact if_neg (by simpa using hhead)
    rw [Option.map_none, Option.getD_none, List.nil_append, readPower, hread]
    exact if_neg hhead

/-- Neither a digit nor a point stands behind the places. -/
theorem head_exponent (hrest : EndsNumber rest) :
    ∀ c ∈ ((m.exponent.map Exponent.text).getD [] ++ rest).head?,
      isDecimalDigit c = false ∧ c ≠ '.' := by
  intro c hc
  cases hexponent : m.exponent with
  | none =>
    rw [hexponent] at hc
    exact ⟨(hrest c hc).1, (hrest c hc).2.1⟩
  | some e =>
    rw [hexponent] at hc
    obtain rfl : e.mark = c := Option.some.inj hc
    obtain hmark | hmark := (m.exponent_valid e hexponent).mark <;> rw [hmark] <;> decide

/-- No digit stands behind the whole part. -/
theorem head_places (hrest : EndsNumber rest) :
    ∀ c ∈ ((if m.places = [] then [] else '.' :: m.places) ++
      ((m.exponent.map Exponent.text).getD [] ++ rest)).head?, isDecimalDigit c = false := by
  intro c hc
  split at hc
  · exact (head_exponent m hrest c hc).1
  · cases hc
    decide

/-- A number is read up to its end. -/
theorem readMagnitude_of_text (hrest : EndsNumber rest) :
    readMagnitude (m.text ++ rest) = some (m.toJson, rest) := by
  rw [Magnitude.text, List.append_assoc, List.append_assoc, readMagnitude,
    readWhole_of_whole m (head_places m hrest)]
  simp only [Option.bind_eq_bind, Option.bind_some, readPlaces_of_places m (head_exponent m hrest),
    readPower_of_exponent m hrest, Magnitude.toJson]
  split
  · next hplaces hexponent => simp [hplaces, hexponent]
  · next hsome =>
    rw [if_neg fun h => hsome h.1 h.2]
    rfl

/-- The text of a number without its sign starts with a digit. -/
theorem exists_head : ∃ c t, m.text = c :: t ∧ isDecimalDigit c = true := by
  have hne : m.whole ≠ [] := by
    obtain hzero | ⟨hne, -⟩ := m.whole_leading
    · simp [hzero]
    · exact hne
  obtain ⟨c, digits, hwhole⟩ := List.exists_cons_of_ne_nil hne
  exact ⟨c, _, by rw [Magnitude.text, hwhole, List.cons_append],
    m.whole_decimal c (by simp [hwhole])⟩

/-- A text of the grammar is read as its number if what follows ends the number. -/
theorem readNumber_of_text {v : Json} {t : List Char} (h : NumberText v t)
    (hrest : EndsNumber rest) : readNumber (t ++ rest) = some (v, rest) := by
  cases h with
  | unsigned m =>
    obtain ⟨c, t, htext, hdigit⟩ := exists_head m
    have hread := readMagnitude_of_text m hrest
    rw [htext, List.cons_append] at hread ⊢
    rw [readNumber]
    · exact hread
    · rintro _ ⟨rfl, -⟩
      revert hdigit
      decide
  | negative m =>
    rw [List.cons_append, readNumber, readMagnitude_of_text m hrest]
    rfl

end Complete

section Sound

variable {text rest : List Char}

/-- Where a digit stands, digits are taken. -/
theorem takeWhile_ne_nil {base : Nat} (h : startsWithDigit base text = true) :
    text.takeWhile (isDigitIn base) ≠ [] := by
  cases text with
  | nil => simp [startsWithDigit] at h
  | cons c text =>
    rw [List.takeWhile_cons_of_pos (show isDigitIn base c = true from h)]
    simp

/-- A power that is read has digits. -/
theorem read?_valid {e : Exponent} (h : Exponent.read? text = some (e, rest)) : e.Valid := by
  cases text with
  | nil => simp [Exponent.read?] at h
  | cons mark text =>
    rw [Exponent.read?] at h
    split at h
    · next hmark =>
      dsimp only at h
      split at h
      · next hdigit =>
        cases h
        refine ⟨hmark, fun c hc => ?_, takeWhile_ne_nil hdigit, fun c => List.mem_takeWhile_imp⟩
        cases text with
        | nil => simp [Exponent.readSign] at hc
        | cons d text =>
          dsimp only [Exponent.readSign] at hc
          split at hc
          · next hsign =>
            cases hc
            exact hsign
          · cases hc
      · cases h
    · cases h

/-- The power that is read is valid, and its text is what was taken. -/
theorem readPower_sound {exponent : Option Exponent} (h : readPower text = some (exponent, rest)) :
    (∀ e ∈ exponent, e.Valid) ∧ text = (exponent.map Exponent.text).getD [] ++ rest := by
  rw [readPower] at h
  split at h
  · next e after hread =>
    cases h
    refine ⟨fun e he => ?_, (Exponent.read?_append hread).symm⟩
    cases he
    exact read?_valid hread
  · split at h
    · cases h
    · cases h
      exact ⟨by simp, rfl⟩

/-- The places that are read are digits, and behind a point there is at least one. -/
theorem readPlaces_sound {places : List Char} (h : readPlaces text = some (places, rest)) :
    (∀ c ∈ places, isDecimalDigit c = true) ∧
      text = (if places = [] then [] else '.' :: places) ++ rest := by
  cases text with
  | nil =>
    cases h
    exact ⟨by simp, rfl⟩
  | cons c text =>
    rw [readPlaces] at h
    split at h
    · next hpoint =>
      split at h
      · next hdigit =>
        cases h
        have hne : text.takeWhile isDecimalDigit ≠ [] := takeWhile_ne_nil hdigit
        refine ⟨fun c => List.mem_takeWhile_imp, ?_⟩
        rw [if_neg hne, List.cons_append, List.takeWhile_append_dropWhile, hpoint]
      · cases h
    · cases h
      exact ⟨by simp, rfl⟩

/-- The whole part that is read is `0` or starts with another digit. -/
theorem readWhole_sound {whole : List Char} (h : readWhole text = some (whole, rest)) :
    (∀ c ∈ whole, isDecimalDigit c = true) ∧
      (whole = ['0'] ∨ (whole ≠ [] ∧ whole.head? ≠ some '0')) ∧ text = whole ++ rest := by
  cases text with
  | nil => cases h
  | cons c text =>
    rw [readWhole] at h
    split at h
    · next hzero =>
      cases h
      exact ⟨by simp [hzero, isDecimalDigit, isDigitIn, digitValue], .inl (by rw [hzero]), rfl⟩
    · next hnonzero =>
      split at h
      · next hdigit =>
        cases h
        refine ⟨fun c => List.mem_takeWhile_imp, .inr ?_, ?_⟩
        · rw [List.takeWhile_cons_of_pos hdigit]
          simpa using hnonzero
        · rw [List.takeWhile_append_dropWhile]
      · cases h

/-- What is read as a number without a sign is one. -/
theorem readMagnitude_sound {v : Json} (h : readMagnitude text = some (v, rest)) :
    ∃ m : Magnitude, v = m.toJson ∧ text = m.text ++ rest := by
  simp only [readMagnitude, Option.bind_eq_bind, Option.bind_eq_some_iff] at h
  obtain ⟨⟨whole, _⟩, hwhole, ⟨places, _⟩, hplaces, ⟨exponent, _⟩, hpower, h⟩ := h
  obtain ⟨hdecimal, hleading, rfl⟩ := readWhole_sound hwhole
  obtain ⟨hdecimal', rfl⟩ := readPlaces_sound hplaces
  obtain ⟨hvalid, rfl⟩ := readPower_sound hpower
  refine ⟨⟨whole, places, exponent, hdecimal, hleading, hdecimal', hvalid⟩, ?_⟩
  split at h
  · next hplaces hexponent =>
    cases h
    exact ⟨(if_pos ⟨hplaces, hexponent⟩).symm, by simp [Magnitude.text]⟩
  · next hsome =>
    cases h
    exact ⟨(if_neg fun h => hsome h.1 h.2).symm, by simp [Magnitude.text]⟩

/-- What is read as a number is one. -/
theorem readNumber_sound {v : Json} (h : readNumber text = some (v, rest)) :
    ∃ t, NumberText v t ∧ text = t ++ rest := by
  rw [readNumber.eq_def] at h
  split at h
  · obtain ⟨⟨w, after⟩, hread, heq⟩ := Option.map_eq_some_iff.1 h
    cases heq
    obtain ⟨m, rfl, rfl⟩ := readMagnitude_sound hread
    exact ⟨_, .negative m, rfl⟩
  · obtain ⟨m, rfl, rfl⟩ := readMagnitude_sound h
    exact ⟨_, .unsigned m, rfl⟩

end Sound

/-! ## Values -/

/-- White space, which may be empty. -/
def Blank (text : List Char) : Prop := ∀ c ∈ text, isBlank c = true

mutual
/-- The texts of a value. -/
inductive Spells : Json → List Char → Prop where
  | null : Spells .null ['n', 'u', 'l', 'l']
  | boolTrue : Spells (.bool true) ['t', 'r', 'u', 'e']
  | boolFalse : Spells (.bool false) ['f', 'a', 'l', 's', 'e']
  | number {v : Json} {t : List Char} (h : NumberText v t) : Spells v t
  | string {cs t : List Char} (h : CharsText cs t) :
    Spells (.string (String.ofList cs)) ('"' :: (t ++ ['"']))
  | emptyArray {b : List Char} (hb : Blank b) : Spells (.array []) ('[' :: (b ++ [']']))
  | array {items : List Json} {t : List Char} (h : SpellsItems items t) :
    Spells (.array items) ('[' :: (t ++ [']']))
  | emptyObject {b : List Char} (hb : Blank b) : Spells (.object []) ('{' :: (b ++ ['}']))
  | object {fields : List (String × Json)} {t : List Char} (h : SpellsFields fields t) :
    Spells (.object fields) ('{' :: (t ++ ['}']))
/-- The texts of a value with white space around it. -/
inductive Padded : Json → List Char → Prop where
  | mk {v : Json} {b t b' : List Char} (hb : Blank b) (h : Spells v t) (hb' : Blank b') :
    Padded v (b ++ (t ++ b'))
/-- The texts of the items of an array. -/
inductive SpellsItems : List Json → List Char → Prop where
  | one {v : Json} {t : List Char} (h : Padded v t) : SpellsItems [v] t
  | more {v : Json} {items : List Json} {t u : List Char} (h : Padded v t)
    (hitems : SpellsItems items u) : SpellsItems (v :: items) (t ++ ',' :: u)
/-- The texts of a field. -/
inductive SpellsField : String × Json → List Char → Prop where
  | mk {cs : List Char} {v : Json} {b k b' t : List Char} (hb : Blank b) (hkey : CharsText cs k)
    (hb' : Blank b') (h : Padded v t) :
    SpellsField (String.ofList cs, v) (b ++ '"' :: (k ++ '"' :: (b' ++ ':' :: t)))
/-- The texts of the fields of an object. -/
inductive SpellsFields : List (String × Json) → List Char → Prop where
  | one {field : String × Json} {t : List Char} (h : SpellsField field t) : SpellsFields [field] t
  | more {field : String × Json} {fields : List (String × Json)} {t u : List Char}
    (h : SpellsField field t) (hfields : SpellsFields fields u) :
    SpellsFields (field :: fields) (t ++ ',' :: u)
end

end Json

end ScriptLint
