/-!
# Binary floating point numbers of 64 bits

A number is its word: a sign, an eleven bit exponent and a 52 bit fraction. Every number that a
script denotes is the word nearest to an exact quotient of natural numbers, found by
`ofQuotient` in exact arithmetic; a half goes to the even word and what is too large is infinite.
Powers are those of `Nat.pow`, whatever other powers are in scope.
-/

namespace ScriptLint

/-- A double precision number, given by its word. -/
structure Binary64 where
  bits : UInt64
deriving DecidableEq, Repr

namespace Binary64

/-- The word of positive infinity, above all words of finite positive numbers. -/
def infinityWord : Nat := 0x7FF0000000000000

/-- Positive zero. -/
def zero : Binary64 := ⟨0⟩

/-- Positive infinity. -/
def infinity : Binary64 := ⟨0x7FF0000000000000⟩

/-- The word without its sign. -/
def magnitude (x : Binary64) : Nat := x.bits.toNat % Nat.pow 2 63

/-- Whether the sign is set, also for a zero. -/
def isNegative (x : Binary64) : Bool := Nat.pow 2 63 ≤ x.bits.toNat

/-- Whether the number is neither infinite nor the result of an undefined operation. -/
def isFinite (x : Binary64) : Bool := x.magnitude < infinityWord

/-- Whether the number is an infinity of either sign. -/
def isInfinite (x : Binary64) : Bool := x.magnitude == infinityWord

/-- Whether the number is a zero of either sign. -/
def isZero (x : Binary64) : Bool := x.magnitude == 0

/-- The exponent field, which is zero for a zero and for the numbers too small for a leading one. -/
def exponentField (x : Binary64) : Nat := x.magnitude / Nat.pow 2 52

/-- The integer `m` of a finite number whose absolute value is `m * 2 ^ scale`. -/
def significand (x : Binary64) : Nat :=
  if x.exponentField = 0 then x.magnitude % Nat.pow 2 52
  else x.magnitude % Nat.pow 2 52 + Nat.pow 2 52

/-- The power of two that one unit of the significand is worth. -/
def scale (x : Binary64) : Int :=
  Int.ofNat (max x.exponentField 1) - 1075

/-- The same number with its sign changed. -/
def negate (x : Binary64) : Binary64 := ⟨x.bits ^^^ 0x8000000000000000⟩

/-- The integer nearest to `num / den`; a half goes to the even neighbour. -/
def roundHalfEven (num den : Nat) : Nat :=
  let quotient := num / den
  let twice := 2 * (num % den)
  if twice < den then quotient
  else if den < twice then quotient + 1
  else if quotient % 2 = 0 then quotient else quotient + 1

/-- The largest `e` with `2 ^ e ≤ num / den`, for positive `num` and `den`. -/
def binaryExponent (num den : Nat) : Int :=
  let estimate := Int.ofNat num.log2 - Int.ofNat den.log2
  let reached :=
    if 0 ≤ estimate then den * Nat.pow 2 estimate.toNat ≤ num
    else den ≤ num * Nat.pow 2 (-estimate).toNat
  if reached then estimate else estimate - 1

/-- The number nearest to `num / den`. The significand is rounded at the power of two that leaves
53 bits of it, or at the smallest one there is. A significand that is rounded up to 54 bits
carries into the exponent field, and a word that passes infinity's stands for infinity. -/
def ofQuotient (num den : Nat) : Binary64 :=
  if num = 0 then zero
  else
    let power := max (binaryExponent num den - 52) (-1074)
    let rounded :=
      if 0 ≤ power then roundHalfEven num (den * Nat.pow 2 power.toNat)
      else roundHalfEven (num * Nat.pow 2 (-power).toNat) den
    ⟨UInt64.ofNat (min ((power + 1074).toNat * Nat.pow 2 52 + rounded) infinityWord)⟩

/-- The number nearest to a natural number. -/
def ofNat (n : Nat) : Binary64 := ofQuotient n 1

/-- The number nearest to `mantissa * 10 ^ exponent`. A value past the range of the format is
recognised by the place of its first digit, so that no huge power is computed for it. -/
def ofScientific (mantissa : Nat) (exponent : Int) : Binary64 :=
  if mantissa = 0 then zero
  else
    let place := exponent + Int.ofNat (Nat.toDigits 10 mantissa).length
    if 310 < place then infinity
    else if place < -330 then zero
    else if 0 ≤ exponent then ofQuotient (mantissa * Nat.pow 10 exponent.toNat) 1
    else ofQuotient mantissa (Nat.pow 10 (-exponent).toNat)

end Binary64

end ScriptLint
