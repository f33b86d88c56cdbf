import ScriptLint.Token.Numeral

/-!
# Numbers of numerals

A numeral is converted to a number from its characters. Behind a base mark the digits make up a
word of 64 bits, one after the other, and if they do not fit into it the number is infinite. A
decimal is converted from its text, in which the exponent has a small mark. A text that is no
decimal gives no number.
-/

namespace ScriptLint

/-- A word with one more digit in `base`. There is none if 64 bits do not hold it. -/
def pushDigit? (base : Nat) (word : UInt64) (c : Char) : Option UInt64 :=
  let n := word.toNat * base + digitValue c
  if isDigitIn base c ∧ n < Nat.pow 2 64 then some (.ofNat n) else none

/-- The word that digits in `base` denote. -/
def wordOfDigits? (base : Nat) (digits : List Char) : Option UInt64 :=
  if digits.isEmpty then none else digits.foldlM (pushDigit? base) 0

namespace Binary64

/-- What stands in the place of a number where there is none. -/
def nan : Binary64 := ⟨0x7FF8000000000000⟩

/-- The number nearest to the decimal that `text` is. Without a digit before its exponent, or with
anything behind it, a text is no decimal. -/
def ofDecimal? (text : List Char) : Option Binary64 :=
  match Numeral.readDecimal text with
  | (.decimal whole fraction exponent, []) =>
    if whole.isEmpty ∧ fraction.isNone then none
    else some (Numeral.decimal whole fraction exponent).value
  | _ => none

end Binary64

/-- The exponent with a small mark. -/
def Exponent.small (e : Exponent) : Exponent := { e with mark := 'e' }

namespace Numeral

/-- The numeral with a small mark for its exponent. -/
def small : Numeral → Numeral
  | .radix base mark digits => .radix base mark digits
  | .decimal whole fraction exponent => .decimal whole fraction (exponent.map Exponent.small)

/-- The number that a numeral is converted to. -/
def convert : Numeral → Binary64
  | .radix base _ digits =>
    ((wordOfDigits? base digits).map fun word => .ofNat word.toNat).getD .infinity
  | .decimal whole fraction exponent =>
    (Binary64.ofDecimal? (decimal whole fraction exponent).small.text).getD .nan

end Numeral

end ScriptLint
