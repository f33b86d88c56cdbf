import ScriptLint.Number.Binary64

/-!
# The fewest digits that read back

`Binary64.shortest` gives the decimal with the fewest digits among those that round to a number,
and of these the one nearest to it. The search runs over decimal grids of one, two and more
digits: on each of them only the two neighbours of the number can be the answer.
-/

namespace ScriptLint

/-- The number `digits * 10 ^ exponent`. -/
structure Decimal where
  digits : Nat
  exponent : Int
deriving DecidableEq, Repr

/-- Where a number goes that lies exactly between two decimals. -/
inductive Tie where
  | up
  | even
deriving DecidableEq, Repr

namespace Decimal

/-- The same decimal without zeros at the end of its digits; `fuel` bounds their number. -/
def trim (d : Decimal) : (fuel : Nat) → Decimal
  | 0 => d
  | fuel + 1 =>
    if d.digits ≠ 0 ∧ d.digits % 10 = 0 then trim ⟨d.digits / 10, d.exponent + 1⟩ fuel else d

end Decimal

/-- The reals that round to a number, as fractions over one denominator. -/
structure Rounding where
  low : Nat
  value : Nat
  high : Nat
  denominator : Nat
  /-- Whether the ends themselves round to the number. -/
  closed : Bool

namespace Rounding

/-- The interval of a finite number: half a unit to both sides, and a quarter below a power of
two, where the units get smaller. -/
def ofBinary64 (x : Binary64) : Rounding :=
  let m := x.significand
  let power := x.scale - 2
  let factor := if 0 ≤ power then Nat.pow 2 power.toNat else 1
  let below := if m = Nat.pow 2 52 ∧ 1 < x.exponentField then 1 else 2
  { low := (4 * m - below) * factor
    value := 4 * m * factor
    high := (4 * m + 2) * factor
    denominator := if 0 ≤ power then 1 else Nat.pow 2 (-power).toNat
    closed := m % 2 = 0 }

/-- Whether `num / den` rounds to the number. -/
def contains (r : Rounding) (num den : Nat) : Bool :=
  let scaled := num * r.denominator
  if r.closed then r.low * den ≤ scaled && scaled ≤ r.high * den
  else r.low * den < scaled && scaled < r.high * den

end Rounding

/-- The least `j` with `den ≤ num * 10 ^ j`, sought among the first `fuel` numbers. -/
def leadingZeros (num den : Nat) : (fuel : Nat) → Nat
  | 0 => 0
  | fuel + 1 => if den ≤ num then 0 else leadingZeros (num * 10) den fuel + 1

/-- The place of the first significant digit of `num / den`: `e` with
`10 ^ e ≤ num / den < 10 ^ (e + 1)`. -/
def decimalPlace (num den : Nat) : Int :=
  if den ≤ num then Int.ofNat (Nat.toDigits 10 (num / den)).length - 1
  else -(Int.ofNat (leadingZeros num den 400))

namespace Rounding

/-- The nearer of the two neighbours of the number on the grid of multiples of
`10 ^ exponent`, among those that round to it. -/
def onGrid? (r : Rounding) (tie : Tie) (exponent : Int) : Option Decimal :=
  let up := if 0 ≤ exponent then Nat.pow 10 exponent.toNat else 1
  let down := if 0 ≤ exponent then 1 else Nat.pow 10 (-exponent).toNat
  let unit := r.denominator * up
  let scaled := r.value * down
  let lower := scaled / unit
  let takesLower := r.contains (lower * up) down
  let takesUpper := r.contains ((lower + 1) * up) down
  let twice := 2 * (scaled % unit)
  let upperWins := unit < twice || (twice == unit && (tie == .up || lower % 2 == 1))
  match takesLower, takesUpper with
  | true, true => some ⟨if upperWins then lower + 1 else lower, exponent⟩
  | true, false => some ⟨lower, exponent⟩
  | false, true => some ⟨lower + 1, exponent⟩
  | false, false => none

/-- The first hit on the grids whose unit is worth `10 ^ exponent`, `10 ^ (exponent - 1)` and so
on. Seventeen digits always suffice, so the last grid is not reached without a hit. -/
def shortestFrom (r : Rounding) (tie : Tie) (exponent : Int) : (grids : Nat) → Decimal
  | 0 => ⟨0, 0⟩
  | grids + 1 =>
    match r.onGrid? tie exponent with
    | some d => d
    | none => shortestFrom r tie (exponent - 1) grids

end Rounding

/-- The shortest decimal that rounds to the absolute value of a finite number, without zeros at
its end. -/
def Binary64.shortest (tie : Tie) (x : Binary64) : Decimal :=
  if x.isZero then ⟨0, 0⟩
  else
    let r := Rounding.ofBinary64 x
    (r.shortestFrom tie (decimalPlace r.value r.denominator) 18).trim 18

end ScriptLint
