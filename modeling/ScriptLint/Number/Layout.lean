import ScriptLint.Number.Shortest

/-!
# Numbers as text

Two layouts of the shortest digits. Messages and property keys write a number out in full,
however many zeros that takes. JSON keeps a fraction on every number and turns to an exponent
outside a range of magnitudes.
-/

namespace ScriptLint

namespace Decimal

/-- The characters of the digits. -/
def digitChars (d : Decimal) : List Char := Nat.toDigits 10 d.digits

/-- The place of the first digit: one for tens, zero for units, less for fractions. -/
def leadingPlace (d : Decimal) : Int :=
  d.exponent + Int.ofNat d.digitChars.length - 1

/-- The decimal written out without an exponent; `whole` follows a number that has no fraction. -/
def positional (whole : List Char) (d : Decimal) : List Char :=
  let digits := d.digitChars
  let count := Int.ofNat digits.length
  if 0 ≤ d.exponent then digits ++ List.replicate d.exponent.toNat '0' ++ whole
  else if d.exponent + count ≤ 0 then
    '0' :: '.' :: (List.replicate (-(d.exponent + count)).toNat '0' ++ digits)
  else
    let point := (d.exponent + count).toNat
    digits.take point ++ '.' :: digits.drop point

/-- The decimal with one digit before the point and the power of ten after it. -/
def exponential (d : Decimal) : List Char :=
  let place := d.leadingPlace
  let mark := if 0 ≤ place then ['e', '+'] else ['e', '-']
  let power := mark ++ Nat.toDigits 10 place.natAbs
  match d.digitChars with
  | [] => power
  | [digit] => digit :: power
  | digit :: digits => digit :: '.' :: (digits ++ power)

end Decimal

namespace Binary64

/-- Puts a minus sign before the text of a negative number. -/
def signed (x : Binary64) (text : List Char) : List Char :=
  if x.isNegative then '-' :: text else text

/-- A number as messages and property keys show it: the shortest digits, always written out, and
no fraction on a whole number. A number between two shortest decimals shows the larger one. -/
def render (x : Binary64) : String :=
  if x.isFinite then String.ofList (x.signed ((x.shortest .up).positional []))
  else if x.isInfinite then String.ofList (x.signed ['i', 'n', 'f'])
  else "NaN"

/-- A finite number in JSON: written out with a fraction when its first digit stands between the
hundred thousandths and the quadrillions, else with an exponent. -/
def jsonChars (x : Binary64) : List Char :=
  let d := x.shortest .even
  let place := d.leadingPlace
  x.signed (if -5 ≤ place ∧ place ≤ 15 then d.positional ['.', '0'] else d.exponential)

end Binary64

end ScriptLint
