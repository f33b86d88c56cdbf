import ScriptLint.Json.Value
import ScriptLint.Token.Numeral

/-!
# Reading JSON

`Json.parse?` reads a text that is one JSON value with white space around its parts, and nothing
else. The reader is strict: strings hold no raw control characters and only the escapes of the
format, halves of a character outside the basic plane come in pairs, numbers have no leading
zeros, and nothing follows the value.
-/

namespace ScriptLint.Json

/-- Whether `c` is white space between the parts of a value. -/
def isBlank (c : Char) : Bool :=
  c == ' ' || c == '\t' || c == '\n' || c == '\r'

/-- The text without white space at its front. -/
def skipBlanks (text : List Char) : List Char := text.dropWhile isBlank

/-- Four hexadecimal digits. -/
def readHex4 : List Char → Option (Nat × List Char)
  | a :: b :: c :: d :: rest =>
    let digits := [a, b, c, d]
    if digits.all (isDigitIn 16) then some (numberOfDigits 16 digits, rest) else none
  | _ => none

/-- The character behind `\u`. The first half of a pair needs the second one behind it. -/
def readUnicode (text : List Char) : Option (Char × List Char) :=
  match readHex4 text with
  | none => none
  | some (code, rest) =>
    if 0xD800 ≤ code ∧ code < 0xDC00 then
      match rest with
      | '\\' :: 'u' :: rest =>
        match readHex4 rest with
        | some (low, rest) =>
          if 0xDC00 ≤ low ∧ low < 0xE000 then
            some (Char.ofNat (0x10000 + (code - 0xD800) * 0x400 + (low - 0xDC00)), rest)
          else none
        | none => none
      | _ => none
    else if 0xDC00 ≤ code ∧ code < 0xE000 then none
    else some (Char.ofNat code, rest)

/-- The character that an escape stands for; the text starts behind the backslash. -/
def readEscape : List Char → Option (Char × List Char)
  | [] => none
  | c :: rest =>
    if c = '"' ∨ c = '\\' ∨ c = '/' then some (c, rest)
    else if c = 'b' then some ('\x08', rest)
    else if c = 'f' then some ('\x0c', rest)
    else if c = 'n' then some ('\n', rest)
    else if c = 'r' then some ('\r', rest)
    else if c = 't' then some ('\t', rest)
    else if c = 'u' then readUnicode rest
    else none

/-- Four digits make the text shorter. -/
theorem readHex4_length {text rest : List Char} {code : Nat}
    (h : readHex4 text = some (code, rest)) : rest.length < text.length := by
  match text with
  | [] | [_] | [_, _] | [_, _, _] => simp [readHex4] at h
  | a :: b :: c :: d :: text =>
    simp only [readHex4] at h
    split at h
    · cases h
      simp only [List.length_cons]
      omega
    · cases h

/-- The character behind `\u` makes the text shorter. -/
theorem readUnicode_length {text rest : List Char} {c : Char}
    (h : readUnicode text = some (c, rest)) : rest.length < text.length := by
  rw [readUnicode] at h
  split at h
  · cases h
  · next code after hhex =>
    have hafter := readHex4_length hhex
    split at h
    · split at h
      · split at h
        · next low last hlow =>
          have hlast := readHex4_length hlow
          split at h
          · obtain ⟨-, rfl⟩ := Prod.mk.inj (Option.some.inj h)
            simp only [List.length_cons] at hafter
            omega
          · cases h
        · cases h
      · cases h
    · split at h
      · cases h
      · obtain ⟨-, rfl⟩ := Prod.mk.inj (Option.some.inj h)
        exact hafter

/-- An escape makes the text shorter. -/
theorem readEscape_length {text rest : List Char} {c : Char}
    (h : readEscape text = some (c, rest)) : rest.length < text.length := by
  cases text with
  | nil => simp [readEscape] at h
  | cons d text =>
    rw [readEscape] at h
    by_cases hu : d = 'u'
    · subst hu
      have := readUnicode_length (by simpa using h)
      simp only [List.length_cons]
      omega
    · simp only [hu, if_false] at h
      repeat' split at h
      all_goals cases h
      all_goals simp

/-- The characters of a string; the text starts behind the opening quote. -/
def readString (text : List Char) : Option (List Char × List Char) :=
  match text with
  | [] => none
  | c :: rest =>
    if c = '"' then some ([], rest)
    else if c = '\\' then
      match _h : readEscape rest with
      | some (d, rest) => (readString rest).map fun (s, rest) => (d :: s, rest)
      | none => none
    else if c.toNat < 0x20 then none
    else (readString rest).map fun (s, rest) => (c :: s, rest)
termination_by text.length
decreasing_by
  · have := readEscape_length _h
    simp only [List.length_cons]
    omega
  · simp

/-- The digits of a number before its point: a zero alone, or digits that do not start with one. -/
def readWhole (text : List Char) : Option (List Char × List Char) :=
  match text with
  | [] => none
  | c :: rest =>
    if c = '0' then some ([c], rest)
    else if isDecimalDigit c then
      some (text.takeWhile isDecimalDigit, text.dropWhile isDecimalDigit)
    else none

/-- The fraction of a number, which needs a digit. -/
def readPlaces : List Char → Option (List Char × List Char)
  | [] => some ([], [])
  | c :: rest =>
    if c = '.' then
      if startsWithDigit 10 rest then
        some (rest.takeWhile isDecimalDigit, rest.dropWhile isDecimalDigit)
      else none
    else some ([], c :: rest)

/-- The exponent of a number, which needs a digit. -/
def readPower (text : List Char) : Option (Option Exponent × List Char) :=
  match Exponent.read? text with
  | some (e, rest) => some (some e, rest)
  | none => if text.head? = some 'e' ∨ text.head? = some 'E' then none else some (none, text)

/-- A number without its sign. -/
def readMagnitude (text : List Char) : Option (Json × List Char) := do
  let (whole, rest) ← readWhole text
  let (places, rest) ← readPlaces rest
  let (exponent, rest) ← readPower rest
  match places, exponent with
  | [], none => return (.integer (numberOfDigits 10 whole), rest)
  | _, _ =>
    let power := (exponent.map Exponent.power).getD 0 - Int.ofNat places.length
    return (.real (.ofScientific (numberOfDigits 10 (whole ++ places)) power), rest)

/-- The number with its sign changed. -/
def negate : Json → Json
  | .integer n => .real (Binary64.ofNat n).negate
  | .real x => .real x.negate
  | other => other

/-- A number. -/
def readNumber : List Char → Option (Json × List Char)
  | '-' :: rest => (readMagnitude rest).map fun (n, rest) => (n.negate, rest)
  | text => readMagnitude text

mutual
/-- A value with white space before it. -/
def readValue : (fuel : Nat) → List Char → Option (Json × List Char)
  | 0, _ => none
  | fuel + 1, text =>
    match skipBlanks text with
    | 'n' :: 'u' :: 'l' :: 'l' :: rest => some (.null, rest)
    | 't' :: 'r' :: 'u' :: 'e' :: rest => some (.bool true, rest)
    | 'f' :: 'a' :: 'l' :: 's' :: 'e' :: rest => some (.bool false, rest)
    | '"' :: rest => (readString rest).map fun (s, rest) => (.string (String.ofList s), rest)
    | '[' :: rest =>
      match skipBlanks rest with
      | ']' :: rest => some (.array [], rest)
      | rest => (readItems fuel rest).map fun (items, rest) => (.array items, rest)
    | '{' :: rest =>
      match skipBlanks rest with
      | '}' :: rest => some (.object [], rest)
      | rest => (readFields fuel rest).map fun (fields, rest) => (.object fields, rest)
    | rest => readNumber rest
/-- The items of an array up to its end. -/
def readItems : (fuel : Nat) → List Char → Option (List Json × List Char)
  | 0, _ => none
  | fuel + 1, text =>
    match readValue fuel text with
    | none => none
    | some (item, rest) =>
      match skipBlanks rest with
      | ']' :: rest => some ([item], rest)
      | ',' :: rest => (readItems fuel rest).map fun (items, rest) => (item :: items, rest)
      | _ => none
/-- The fields of an object up to its end. -/
def readFields : (fuel : Nat) → List Char → Option (List (String × Json) × List Char)
  | 0, _ => none
  | fuel + 1, text =>
    match skipBlanks text with
    | '"' :: rest =>
      match readString rest with
      | none => none
      | some (key, rest) =>
        match skipBlanks rest with
        | ':' :: rest =>
          match readValue fuel rest with
          | none => none
          | some (value, rest) =>
            let field := (String.ofList key, value)
            match skipBlanks rest with
            | '}' :: rest => some ([field], rest)
            | ',' :: rest =>
              (readFields fuel rest).map fun (fields, rest) => (field :: fields, rest)
            | _ => none
        | _ => none
    | _ => none
end

/-- The value of a text. A value takes at most two calls for each of its characters. -/
def parse? (source : String) : Option Json :=
  let text := source.toList
  match readValue (2 * text.length + 2) text with
  | some (value, rest) => if (skipBlanks rest).isEmpty then some value else none
  | none => none

end ScriptLint.Json
