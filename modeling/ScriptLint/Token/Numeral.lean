import ScriptLint.Number.Binary64

/-!
# Numeric literals

A numeral is a decimal with an optional fraction and exponent, or digits in base sixteen, eight or
two behind a mark. `Numeral.read` takes the longest numeral from the front of a text; a mark, a
point or an exponent that no digit follows stays in the text, except for a point behind digits.
-/

namespace ScriptLint

/-- The value of a digit in the bases up to sixteen. -/
def digitValue (c : Char) : Nat :=
  if '0' ≤ c ∧ c ≤ '9' then c.toNat - '0'.toNat
  else if 'a' ≤ c ∧ c ≤ 'f' then c.toNat - 'a'.toNat + 10
  else if 'A' ≤ c ∧ c ≤ 'F' then c.toNat - 'A'.toNat + 10
  else 16

/-- Whether `c` is a digit in `base`. -/
def isDigitIn (base : Nat) (c : Char) : Bool :=
  digitValue c < base

/-- Whether `c` is a decimal digit. -/
def isDecimalDigit (c : Char) : Bool := isDigitIn 10 c

/-- Whether a text starts with a digit in `base`. -/
def startsWithDigit (base : Nat) (text : List Char) : Bool :=
  text.head?.any (isDigitIn base)

/-- The natural number that digits in `base` denote. -/
def numberOfDigits (base : Nat) (digits : List Char) : Nat :=
  digits.foldl (fun n c => n * base + digitValue c) 0

/-- The exponent of a numeral: its mark, its sign if it has one, and its digits. -/
structure Exponent where
  mark : Char
  sign : Option Char
  digits : List Char
deriving DecidableEq, Repr

namespace Exponent

/-- The exponent as it is written. -/
def text (e : Exponent) : List Char :=
  e.mark :: (e.sign.toList ++ e.digits)

/-- The power of ten that the exponent denotes. -/
def power (e : Exponent) : Int :=
  let n := Int.ofNat (numberOfDigits 10 e.digits)
  if e.sign = some '-' then -n else n

/-- Reads the sign of an exponent, if there is one. -/
def readSign : List Char → Option Char × List Char
  | [] => (none, [])
  | c :: rest => if c = '+' ∨ c = '-' then (some c, rest) else (none, c :: rest)

/-- Reads an exponent, which needs a digit behind its mark and sign. -/
def read? : List Char → Option (Exponent × List Char)
  | [] => none
  | mark :: rest =>
    if mark = 'e' ∨ mark = 'E' then
      let (sign, digits) := readSign rest
      if startsWithDigit 10 digits then
        some (⟨mark, sign, digits.takeWhile isDecimalDigit⟩, digits.dropWhile isDecimalDigit)
      else none
    else none

end Exponent

/-- A numeric literal, taken apart. -/
inductive Numeral where
  /-- Digits in a base that the letter behind a zero names. -/
  | radix (base : Nat) (mark : Char) (digits : List Char)
  /-- Decimal digits, a fraction if there is a point, and an exponent. -/
  | decimal (whole : List Char) (fraction : Option (List Char)) (exponent : Option Exponent)
deriving DecidableEq, Repr

namespace Numeral

/-- The base that the letter behind a zero names. -/
def baseOfMark? (c : Char) : Option Nat :=
  if c = 'x' ∨ c = 'X' then some 16
  else if c = 'o' ∨ c = 'O' then some 8
  else if c = 'b' ∨ c = 'B' then some 2
  else none

/-- Reads a numeral with a base mark, which needs a digit of that base behind it. -/
def readRadix? : List Char → Option (Numeral × List Char)
  | zero :: mark :: rest =>
    match baseOfMark? mark with
    | some base =>
      if zero = '0' ∧ startsWithDigit base rest then
        some (.radix base mark (rest.takeWhile (isDigitIn base)), rest.dropWhile (isDigitIn base))
      else none
    | none => none
  | _ => none

/-- Reads the point and the digits of a fraction. A point without a digit on either side is none. -/
def readFraction? (afterDigit : Bool) : List Char → Option (List Char × List Char)
  | [] => none
  | point :: rest =>
    if point = '.' ∧ (afterDigit ∨ startsWithDigit 10 rest) then
      some (rest.takeWhile isDecimalDigit, rest.dropWhile isDecimalDigit)
    else none

/-- Reads a decimal numeral. -/
def readDecimal (text : List Char) : Numeral × List Char :=
  let whole := text.takeWhile isDecimalDigit
  let afterWhole := text.dropWhile isDecimalDigit
  let fraction := readFraction? (!whole.isEmpty) afterWhole
  let afterFraction := (fraction.map (·.2)).getD afterWhole
  let exponent := Exponent.read? afterFraction
  (.decimal whole (fraction.map (·.1)) (exponent.map (·.1)),
    (exponent.map (·.2)).getD afterFraction)

/-- Reads the longest numeral that `text` starts with. -/
def read (text : List Char) : Numeral × List Char :=
  (readRadix? text).getD (readDecimal text)

/-- The numeral as it is written. -/
def text : Numeral → List Char
  | .radix _ mark digits => '0' :: mark :: digits
  | .decimal whole fraction exponent =>
    whole ++ (fraction.map ('.' :: ·)).getD [] ++ (exponent.map Exponent.text).getD []

/-- The number that the numeral denotes. Digits in a marked base denote infinity from `2 ^ 64`
on. -/
def value : Numeral → Binary64
  | .radix base _ digits =>
    let n := numberOfDigits base digits
    if n < Nat.pow 2 64 then .ofNat n else .infinity
  | .decimal whole fraction exponent =>
    let places := fraction.getD []
    .ofScientific (numberOfDigits 10 (whole ++ places))
      ((exponent.map Exponent.power).getD 0 - Int.ofNat places.length)

end Numeral

end ScriptLint
