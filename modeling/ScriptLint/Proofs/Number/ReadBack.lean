import Mathlib.Data.Nat.Cast.Order.Field
import ScriptLint.Proofs.Number.Rounding

/-!
# The shortest digits read back

The decimal that `Binary64.shortest` finds rounds to the number it was found for. The search hits
the interval of the number on the grid of eighteen digits at the latest, because a unit of that
grid is less than a quarter of a unit of the significand. Read as a decimal, in whatever way its
value is split into digits and a power of ten, the result is the number again
(`ofScientific_of_shortest`).
-/

namespace ScriptLint

namespace Decimal

/-- The rational that a decimal stands for. -/
def value (d : Decimal) : ℚ := d.digits * 10 ^ d.exponent

theorem value_trim (d : Decimal) (fuel : Nat) : (d.trim fuel).value = d.value := by
  induction fuel generalizing d with
  | zero => rfl
  | succ fuel ih =>
    rw [trim]
    split
    · next hzero =>
      have hdigits : (d.digits : ℚ) = (d.digits / 10 : Nat) * 10 := by
        exact_mod_cast (Nat.div_mul_cancel (Nat.dvd_of_mod_eq_zero hzero.2)).symm
      rw [ih, value, value, zpow_add_one₀ (by norm_num), hdigits]
      ring
    · rfl

end Decimal

/-! ## The interval of the search -/

namespace Rounding

section Interval

variable (x : Binary64)

theorem denominator_pos : 0 < (ofBinary64 x).denominator := pow_denominator_pos two_pos _

/-- The fractions of the interval are multiples of a quarter of a unit. -/
theorem quarters (n : Nat) :
    ((n * (if 0 ≤ x.scale - 2 then Nat.pow 2 (x.scale - 2).toNat else 1) : Nat) : ℚ) /
      (ofBinary64 x).denominator = n * 2 ^ (x.scale - 2) :=
  cast_mul_pow_div 2 n (x.scale - 2)

theorem value_div_denominator :
    ((ofBinary64 x).value : ℚ) / (ofBinary64 x).denominator = x.significand * 2 ^ x.scale := by
  have h := quarters x (4 * x.significand)
  rw [Binary64.two_zpow_sub_two] at h
  refine Eq.trans h ?_
  push_cast
  ring

theorem high_div_denominator :
    ((ofBinary64 x).high : ℚ) / (ofBinary64 x).denominator = x.highEnd := by
  refine (quarters x (4 * x.significand + 2)).trans ?_
  rw [Binary64.highEnd]
  push_cast
  ring

variable {x}

theorem low_div_denominator (hpos : 0 < x.significand) :
    ((ofBinary64 x).low : ℚ) / (ofBinary64 x).denominator = x.lowEnd := by
  refine (quarters x _).trans ?_
  rw [Binary64.lowEnd, Nat.cast_sub (by split <;> omega)]
  push_cast
  rfl

/-- The comparison of two fractions, in natural numbers. -/
theorem div_le_div_iff_mul {a b c d : Nat} (hb : 0 < b) (hd : 0 < d) :
    (a : ℚ) / b ≤ c / d ↔ a * d ≤ c * b := by
  rw [div_le_div_iff₀ (by exact_mod_cast hb) (by exact_mod_cast hd)]
  exact_mod_cast Iff.rfl

/-- The search takes exactly the fractions that round to the number. -/
theorem contains_iff (hpos : 0 < x.significand) {num den : Nat} (hden : 0 < den) :
    (ofBinary64 x).contains num den = true ↔ x.Attracts (num / den) := by
  have hunit := denominator_pos x
  have hlow : x.lowEnd ≤ num / den ↔
      (ofBinary64 x).low * den ≤ num * (ofBinary64 x).denominator := by
    rw [← low_div_denominator hpos, div_le_div_iff_mul hunit hden]
  have hhigh : (num : ℚ) / den ≤ x.highEnd ↔
      num * (ofBinary64 x).denominator ≤ (ofBinary64 x).high * den := by
    rw [← high_div_denominator, div_le_div_iff_mul hden hunit]
  have hlow' : x.lowEnd < num / den ↔
      (ofBinary64 x).low * den < num * (ofBinary64 x).denominator := by
    rw [← low_div_denominator hpos, ← not_le, div_le_div_iff_mul hden hunit, not_le]
  have hhigh' : (num : ℚ) / den < x.highEnd ↔
      num * (ofBinary64 x).denominator < (ofBinary64 x).high * den := by
    rw [← high_div_denominator, ← not_le, div_le_div_iff_mul hunit hden, not_le]
  have hclosed : (ofBinary64 x).closed = true ↔ x.significand % 2 = 0 := decide_eq_true_iff
  rw [contains]
  split
  · next heven =>
    rw [Bool.and_eq_true, decide_eq_true_iff, decide_eq_true_iff, ← hlow, ← hhigh]
    have hne : x.significand % 2 ≠ 1 := by simp [hclosed.1 heven]
    exact ⟨fun h => ⟨h.1, h.2, fun hodd => absurd hodd hne⟩, fun h => ⟨h.low, h.high⟩⟩
  · next hodd =>
    rw [Bool.and_eq_true, decide_eq_true_iff, decide_eq_true_iff, ← hlow', ← hhigh']
    have hone : x.significand % 2 = 1 := Nat.mod_two_ne_zero.1 fun h => hodd (hclosed.2 h)
    exact ⟨fun h => ⟨h.1.le, h.2.le, fun _ => h⟩, fun h => h.odd hone⟩

end Interval

/-! ## Grids -/

section Grid

variable {x : Binary64} {tie : Tie}

/-- A hit on a grid rounds to the number. -/
theorem attracts_of_onGrid? (hpos : 0 < x.significand) {exponent : Int} {d : Decimal}
    (h : (ofBinary64 x).onGrid? tie exponent = some d) : x.Attracts d.value := by
  have htested {n : Nat} (htakes : (ofBinary64 x).contains
      (n * if 0 ≤ exponent then Nat.pow 10 exponent.toNat else 1)
      (if 0 ≤ exponent then 1 else Nat.pow 10 (-exponent).toNat) = true) :
      x.Attracts (Decimal.value ⟨n, exponent⟩) := by
    rw [contains_iff hpos (pow_denominator_pos (by decide) exponent), cast_mul_pow_div] at htakes
    exact htakes
  simp only [onGrid?] at h
  generalize (if 0 ≤ exponent then Nat.pow 10 exponent.toNat else 1) = up at *
  generalize (if 0 ≤ exponent then 1 else Nat.pow 10 (-exponent).toNat) = down at *
  split at h
  · next hlower hupper =>
    cases h
    split
    · exact htested hupper
    · exact htested hlower
  · next hlower _ =>
    cases h
    exact htested hlower
  · next _ hupper =>
    cases h
    exact htested hupper
  · cases h

/-- The lower neighbour of a fraction on a grid of units `up / down`. -/
theorem lower_neighbour (value : Nat) {unit up down : Nat} (hunit : 0 < unit) (hup : 0 < up)
    (hdown : 0 < down) :
    ((value * down / (unit * up) : Nat) : ℚ) * (up / down) ≤ value / unit ∧
      (value : ℚ) / unit < ((value * down / (unit * up) : Nat) + 1) * (up / down) := by
  have hunit' : (0 : ℚ) < unit := by exact_mod_cast hunit
  have hdown' : (0 : ℚ) < down := by exact_mod_cast hdown
  have hle : value * down / (unit * up) * (unit * up) ≤ value * down := Nat.div_mul_le_self _ _
  have hlt : value * down < (value * down / (unit * up) + 1) * (unit * up) :=
    (Nat.div_lt_iff_lt_mul (Nat.mul_pos hunit hup)).1 (Nat.lt_succ_self _)
  generalize value * down / (unit * up) = lower at *
  rw [← mul_div_assoc, ← mul_div_assoc, div_le_div_iff₀ hdown' hunit',
    div_lt_div_iff₀ hunit' hdown']
  constructor
  · have : ((lower * (unit * up) : Nat) : ℚ) ≤ (value * down : Nat) := by exact_mod_cast hle
    push_cast at this
    linarith
  · have : ((value * down : Nat) : ℚ) < ((lower + 1) * (unit * up) : Nat) := by
      exact_mod_cast hlt
    push_cast at this
    linarith

/-- A grid finer than a quarter of a unit is hit: the neighbour below the number is near enough. -/
theorem onGrid?_isSome (hpos : 0 < x.significand) {exponent : Int}
    (hfine : (10 : ℚ) ^ exponent ≤ 2 ^ x.scale / 4) :
    ((ofBinary64 x).onGrid? tie exponent).isSome = true := by
  have hunit : (0 : ℚ) < 2 ^ x.scale := by positivity
  have hcast (n : Nat) := cast_mul_pow_div 10 n exponent
  have hdown := pow_denominator_pos (show 0 < 10 by decide) exponent
  have hup : 0 < (if 0 ≤ exponent then Nat.pow 10 exponent.toNat else 1) := by
    split
    · exact Nat.pow_pos (by decide)
    · exact one_pos
  simp only [onGrid?]
  generalize (if 0 ≤ exponent then Nat.pow 10 exponent.toNat else 1) = up at *
  generalize (if 0 ≤ exponent then 1 else Nat.pow 10 (-exponent).toNat) = down at *
  have hgrid : (up : ℚ) / down = 10 ^ exponent := by simpa using hcast 1
  obtain ⟨hle, hlt⟩ := lower_neighbour (ofBinary64 x).value (denominator_pos x) hup hdown
  generalize (ofBinary64 x).value * down / ((ofBinary64 x).denominator * up) = lower at *
  -- the lower neighbour lies less than a quarter of a unit below the number
  have htakes : (ofBinary64 x).contains (lower * up) down = true := by
    rw [contains_iff hpos hdown, hcast]
    rw [value_div_denominator, hgrid] at hle hlt
    refine .of_lt (x.lowEnd_le.trans_lt ?_) (lt_of_le_of_lt hle ?_)
    · linarith
    · rw [Binary64.highEnd_eq]
      linarith
  rw [htakes]
  split <;> simp_all

/-- The search returns a hit if one of its grids has one. -/
theorem exists_onGrid? {r : Rounding} {exponent : Int} {grids k : Nat} (hk : k < grids)
    (h : (r.onGrid? tie (exponent - k)).isSome = true) :
    ∃ e, r.onGrid? tie e = some (r.shortestFrom tie exponent grids) := by
  induction grids generalizing exponent k with
  | zero => omega
  | succ grids ih =>
    rw [shortestFrom]
    cases hfirst : r.onGrid? tie exponent with
    | some d => exact ⟨exponent, hfirst⟩
    | none =>
      obtain _ | k := k
      · simp [hfirst] at h
      · refine ih (Nat.lt_of_succ_lt_succ hk) ?_
        rwa [Nat.cast_succ, add_comm, ← sub_sub] at h

end Grid

end Rounding

/-! ## The first digit -/

theorem le_mul_pow_leadingZeros {num den fuel : Nat} (h : den ≤ num * 10 ^ fuel) :
    den ≤ num * 10 ^ leadingZeros num den fuel := by
  induction fuel generalizing num with
  | zero => exact h
  | succ fuel ih =>
    rw [leadingZeros]
    split
    · next hle => simpa using hle
    · rw [pow_succ', ← mul_assoc]
      exact ih (by rwa [mul_assoc, ← pow_succ'])

/-- The unit of the first digit does not exceed the number. -/
theorem ten_pow_decimalPlace_le {num den : Nat} (hden : 0 < den) (h : den ≤ num * 10 ^ 400) :
    (10 : ℚ) ^ decimalPlace num den ≤ num / den := by
  have hden' : (0 : ℚ) < den := by exact_mod_cast hden
  rw [decimalPlace]
  split
  · next hle =>
    have hquotient : 0 < num / den := Nat.div_pos hle hden
    have hfrom := (pow_length_toDigits hquotient).1
    have hlength : 0 < (Nat.toDigits 10 (num / den)).length :=
      List.length_pos_of_ne_nil Nat.toDigits_ne_nil
    calc (10 : ℚ) ^ (Int.ofNat (Nat.toDigits 10 (num / den)).length - 1)
        = 10 ^ ((Nat.toDigits 10 (num / den)).length - 1) := by
          rw [← zpow_natCast, Nat.cast_sub hlength]
          rfl
      _ ≤ (num / den : Nat) := by exact_mod_cast hfrom
      _ ≤ num / den := Nat.cast_div_le
  · have hle : (den : ℚ) ≤ num * 10 ^ leadingZeros num den 400 := by
      exact_mod_cast le_mul_pow_leadingZeros h
    rw [Int.ofNat_eq_natCast, zpow_neg, zpow_natCast, inv_le_iff_one_le_mul₀ (by positivity),
      div_mul_eq_mul_div, one_le_div hden']
    exact hle

/-! ## Reading back -/

namespace Binary64

variable {x : Binary64} {tie : Tie}

theorem significand_pos (hzero : x.isZero = false) : 0 < x.significand := by
  have hne : x.magnitude ≠ 0 := by simpa [isZero] using hzero
  have heq := x.magnitude_eq_add
  refine Nat.pos_of_ne_zero fun h => hne ?_
  rw [significand] at h
  split at h
  · next hfield =>
    rw [heq, significand, if_pos hfield, h, hfield]
    rfl
  · simp at h

/-- The grid of eighteen digits is finer than a quarter of a unit. -/
theorem last_grid_fine (hpos : 0 < x.significand) :
    (10 : ℚ) ^ (decimalPlace (Rounding.ofBinary64 x).value (Rounding.ofBinary64 x).denominator -
      (17 : Nat)) ≤ 2 ^ x.scale / 4 := by
  have hunit : (0 : ℚ) < 2 ^ x.scale := by positivity
  have hden : (0 : ℚ) < (Rounding.ofBinary64 x).denominator := by
    exact_mod_cast Rounding.denominator_pos x
  have hvalue := Rounding.value_div_denominator x
  have hsig : (x.significand : ℚ) ≤ 2 ^ 53 := by exact_mod_cast x.significand_lt.le
  -- the first digit of the least number is found with the fuel there is
  have hrange : (Rounding.ofBinary64 x).denominator ≤ (Rounding.ofBinary64 x).value * 10 ^ 400 := by
    have hone : (1 : ℚ) ≤ x.significand := by exact_mod_cast hpos
    have htiny : (2 : ℚ) ^ (-1074 : Int) ≤ 2 ^ x.scale :=
      zpow_le_zpow_right₀ one_le_two (by have := x.scale_eq; omega)
    have hpow : (1 : ℚ) ≤ 2 ^ (-1074 : Int) * 10 ^ 400 := by
      have : 2 ^ 1074 ≤ 10 ^ 400 := by decide +kernel
      rw [zpow_neg, inv_mul_eq_div, one_le_div (by positivity)]
      exact_mod_cast this
    have : ((Rounding.ofBinary64 x).denominator : ℚ) ≤
        (Rounding.ofBinary64 x).value * 10 ^ 400 := by
      rw [← one_le_div hden, mul_div_right_comm, hvalue]
      refine hpow.trans ?_
      gcongr
      nlinarith
    exact_mod_cast this
  have hplace := ten_pow_decimalPlace_le (Rounding.denominator_pos x) hrange
  rw [hvalue] at hplace
  rw [zpow_sub₀ (by norm_num), div_le_iff₀ (by positivity)]
  refine hplace.trans ?_
  calc (x.significand : ℚ) * 2 ^ x.scale ≤ 2 ^ 53 * 2 ^ x.scale := by gcongr
    _ ≤ 2 ^ x.scale / 4 * 10 ^ (17 : Int) := by
      norm_num
      linarith

/-- The shortest decimal of a number rounds to it. -/
theorem shortest_attracts (hzero : x.isZero = false) : x.Attracts (x.shortest tie).value := by
  have hpos := significand_pos hzero
  obtain ⟨e, he⟩ := Rounding.exists_onGrid? (show 17 < 18 by decide)
    (Rounding.onGrid?_isSome hpos (last_grid_fine hpos))
  rw [shortest, hzero, if_neg Bool.false_ne_true, Decimal.value_trim]
  exact Rounding.attracts_of_onGrid? hpos he

/-- A decimal with the value of the shortest one is read as the number. -/
theorem ofScientific_of_shortest (hfinite : x.isFinite = true) (hsign : x.isNegative = false)
    {mantissa : Nat} {exponent : Int}
    (h : (mantissa : ℚ) * 10 ^ exponent = (x.shortest tie).value) :
    ofScientific mantissa exponent = x := by
  cases hzero : x.isZero with
  | false =>
    refine ofScientific_of_attracts hfinite hsign (significand_pos hzero) ?_
    rw [h]
    exact shortest_attracts hzero
  | true =>
    have hmagnitude : x.magnitude = 0 := by simpa [isZero] using hzero
    have hmantissa : mantissa = 0 := by
      rw [shortest, hzero, if_pos rfl] at h
      simpa [Decimal.value, zpow_ne_zero] using h
    rw [eq_ofNat_magnitude hsign, hmagnitude, hmantissa]
    rfl

end Binary64

end ScriptLint
