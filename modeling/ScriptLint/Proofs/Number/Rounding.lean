import Mathlib.Algebra.Order.Field.Power
import Mathlib.Data.Rat.Lemmas
import Mathlib.Tactic.FieldSimp
import Mathlib.Tactic.Linarith
import Mathlib.Tactic.NormNum
import Mathlib.Tactic.Positivity
import Mathlib.Tactic.Ring
import ScriptLint.Number.Shortest

/-!
# The reals that round to a number

A finite number stands for all rationals that lie nearer to it than to its neighbours
(`Binary64.Attracts`). Between two neighbours the one with the even significand takes the middle.
Whatever quotient or decimal lies there, the number is what it is rounded to
(`ofQuotient_of_attracts`, `ofScientific_of_attracts`). No rounding leads to a number other than a
finite one or infinity (`ofScientific_isRounded`).
-/

namespace ScriptLint

/-! ## Powers with integer exponents -/

/-- A power with an exponent that is not negative. -/
theorem cast_pow_toNat (base : Nat) {power : Int} (h : 0 ≤ power) :
    ((Nat.pow base power.toNat : Nat) : ℚ) = (base : ℚ) ^ power := by
  obtain ⟨n, rfl⟩ := Int.eq_ofNat_of_zero_le h
  simp

/-- A power with an exponent that is not positive stands in the denominator. -/
theorem cast_pow_neg_toNat (base : Nat) {power : Int} (h : power ≤ 0) :
    ((Nat.pow base (-power).toNat : Nat) : ℚ) = ((base : ℚ) ^ power)⁻¹ := by
  rw [cast_pow_toNat base (Int.neg_nonneg_of_nonpos h), zpow_neg]

/-- A multiple of a power, as the quotient of natural numbers that computations use. -/
theorem cast_mul_pow_div (base n : Nat) (power : Int) :
    ((n * (if 0 ≤ power then Nat.pow base power.toNat else 1) : Nat) : ℚ) /
      ((if 0 ≤ power then 1 else Nat.pow base (-power).toNat : Nat) : ℚ) =
        n * (base : ℚ) ^ power := by
  split
  · next hle => rw [Nat.cast_mul, cast_pow_toNat base hle, Nat.cast_one, div_one]
  · next hlt => rw [mul_one, cast_pow_neg_toNat base (Int.le_of_not_le hlt), div_inv_eq_mul]

theorem pow_denominator_pos {base : Nat} (hbase : 0 < base) (power : Int) :
    0 < (if 0 ≤ power then 1 else Nat.pow base (-power).toNat) := by
  split
  · exact one_pos
  · exact Nat.pow_pos hbase

/-- A number lies between the powers of ten that its digits count out. -/
theorem pow_length_toDigits {n : Nat} (hn : 0 < n) :
    10 ^ ((Nat.toDigits 10 n).length - 1) ≤ n ∧ n < 10 ^ (Nat.toDigits 10 n).length := by
  have hlength : 0 < (Nat.toDigits 10 n).length := List.length_pos_of_ne_nil Nat.toDigits_ne_nil
  refine ⟨?_, (Nat.length_toDigits_le_iff (by decide) hlength).1 le_rfl⟩
  by_contra hlt
  obtain hone | hmore : (Nat.toDigits 10 n).length - 1 = 0 ∨ 0 < (Nat.toDigits 10 n).length - 1 :=
    Nat.eq_zero_or_pos _
  · rw [hone] at hlt
    omega
  · have := (Nat.length_toDigits_le_iff (by decide) hmore).2 (not_le.1 hlt)
    omega

/-- A decimal lies between the powers of ten at the place of its first digit. -/
theorem zpow_place {n : Nat} (hn : 0 < n) (exponent : Int) :
    (10 : ℚ) ^ (exponent + (Nat.toDigits 10 n).length - 1) ≤ n * 10 ^ exponent ∧
      (n : ℚ) * 10 ^ exponent < 10 ^ (exponent + (Nat.toDigits 10 n).length) := by
  obtain ⟨hfrom, hto⟩ := pow_length_toDigits hn
  have hlength : 0 < (Nat.toDigits 10 n).length := List.length_pos_of_ne_nil Nat.toDigits_ne_nil
  have hpow : (0 : ℚ) < 10 ^ exponent := by positivity
  generalize (Nat.toDigits 10 n).length = count at *
  constructor
  · calc (10 : ℚ) ^ (exponent + count - 1) = 10 ^ ((count - 1 : Nat) : Int) * 10 ^ exponent := by
          rw [← zpow_add₀ (by norm_num)]
          congr 1
          omega
      _ = (10 ^ (count - 1) : Nat) * 10 ^ exponent := by
          rw [zpow_natCast]
          norm_cast
      _ ≤ n * 10 ^ exponent := by gcongr
  · calc (n : ℚ) * 10 ^ exponent < (10 ^ count : Nat) * 10 ^ exponent := by gcongr
      _ = 10 ^ (exponent + count) := by
          rw [add_comm, zpow_add₀ (by norm_num), zpow_natCast]
          norm_cast

namespace Binary64

/-! ## The word of a number -/

section Word

variable (x : Binary64)

/-- A finite number has not the greatest exponent. -/
theorem exponentField_lt (h : x.isFinite = true) : x.exponentField < 2047 := by
  have hlt : x.magnitude < infinityWord := of_decide_eq_true h
  rw [exponentField, infinityWord] at *
  exact Nat.div_lt_of_lt_mul (by simpa using hlt)

/-- The word of a number is its exponent and its fraction. -/
theorem magnitude_eq : x.magnitude = x.exponentField * 2 ^ 52 + x.magnitude % 2 ^ 52 := by
  rw [exponentField, Nat.mul_comm]
  exact (Nat.div_add_mod _ _).symm

theorem significand_lt : x.significand < 2 ^ 53 := by
  have hlt : x.magnitude % Nat.pow 2 52 < Nat.pow 2 52 := Nat.mod_lt _ (by decide)
  simp only [Nat.pow_eq, Nat.reducePow] at hlt
  simp only [significand, Nat.pow_eq, Nat.reducePow]
  split <;> omega

/-- The word without its sign, made up of its parts. -/
theorem magnitude_eq_add :
    x.magnitude = (max x.exponentField 1 - 1) * 2 ^ 52 + x.significand := by
  have heq := x.magnitude_eq
  rw [significand]
  cases hfield : x.exponentField with
  | zero =>
    rw [hfield] at heq
    simpa using heq
  | succ n =>
    rw [hfield, Nat.succ_mul, Nat.add_assoc, Nat.add_comm (2 ^ 52)] at heq
    simpa using heq

end Word

/-! ## Rounding a quotient -/

section Quotient

variable {num den : Nat}

/-- The comparison of a quotient with a power of two, in natural numbers. -/
theorem two_zpow_le_iff (hden : 0 < den) (power : Int) :
    (if 0 ≤ power then den * Nat.pow 2 power.toNat ≤ num
      else den ≤ num * Nat.pow 2 (-power).toNat) ↔ (2 : ℚ) ^ power ≤ num / den := by
  have hden' : (0 : ℚ) < den := by exact_mod_cast hden
  have hpow : (0 : ℚ) < 2 ^ power := by positivity
  rw [le_div_iff₀ hden']
  split
  · next hle =>
    rw [← Nat.cast_le (α := ℚ), Nat.cast_mul, cast_pow_toNat 2 hle, mul_comm]
    rfl
  · next hlt =>
    rw [← Nat.cast_le (α := ℚ), Nat.cast_mul, cast_pow_neg_toNat 2 (Int.le_of_not_le hlt),
      Nat.cast_ofNat, ← div_eq_mul_inv, le_div_iff₀ hpow, mul_comm]

/-- The exponent of a quotient is that of the power of two at or below it. -/
theorem binaryExponent_spec (hnum : 0 < num) (hden : 0 < den) :
    (2 : ℚ) ^ binaryExponent num den ≤ num / den ∧
      (num : ℚ) / den < 2 ^ (binaryExponent num den + 1) := by
  have hden' : (0 : ℚ) < den := by exact_mod_cast hden
  have hnum_le : (2 : ℚ) ^ (num.log2 : Int) ≤ num := by
    exact_mod_cast Nat.log2_self_le hnum.ne'
  have hnum_lt : (num : ℚ) < 2 ^ (num.log2 + 1 : Int) := by
    exact_mod_cast Nat.lt_log2_self
  have hden_le : (2 : ℚ) ^ (den.log2 : Int) ≤ den := by
    exact_mod_cast Nat.log2_self_le hden.ne'
  have hden_lt : (den : ℚ) < 2 ^ (den.log2 + 1 : Int) := by
    exact_mod_cast Nat.lt_log2_self
  -- the quotient lies within a factor of two of the estimate
  have hlow : (2 : ℚ) ^ ((num.log2 : Int) - den.log2 - 1) ≤ num / den := by
    rw [le_div_iff₀ hden']
    calc (2 : ℚ) ^ ((num.log2 : Int) - den.log2 - 1) * den
        ≤ 2 ^ ((num.log2 : Int) - den.log2 - 1) * 2 ^ (den.log2 + 1 : Int) := by gcongr
      _ = 2 ^ (num.log2 : Int) := by
        rw [← zpow_add₀ two_ne_zero]
        congr 1
        ring
      _ ≤ num := hnum_le
  have hhigh : (num : ℚ) / den < 2 ^ ((num.log2 : Int) - den.log2 + 1) := by
    rw [div_lt_iff₀ hden']
    calc (num : ℚ) < 2 ^ (num.log2 + 1 : Int) := hnum_lt
      _ = 2 ^ ((num.log2 : Int) - den.log2 + 1) * 2 ^ (den.log2 : Int) := by
        rw [← zpow_add₀ two_ne_zero]
        congr 1
        ring
      _ ≤ 2 ^ ((num.log2 : Int) - den.log2 + 1) * den := by gcongr
  rw [binaryExponent]
  simp only [two_zpow_le_iff hden]
  split
  · next hreached => exact ⟨hreached, hhigh⟩
  · next hbelow => exact ⟨hlow, by simpa using hbelow⟩

/-- The exponent of a quotient is found if the quotient lies between two powers of two. -/
theorem binaryExponent_eq (hnum : 0 < num) (hden : 0 < den) {e : Int}
    (hle : (2 : ℚ) ^ e ≤ num / den) (hlt : (num : ℚ) / den < 2 ^ (e + 1)) :
    binaryExponent num den = e := by
  obtain ⟨hle', hlt'⟩ := binaryExponent_spec hnum hden
  have habove := (zpow_lt_zpow_iff_right₀ (one_lt_two (α := ℚ))).1 (hle.trans_lt hlt')
  have hbelow := (zpow_lt_zpow_iff_right₀ (one_lt_two (α := ℚ))).1 (hle'.trans_lt hlt)
  omega

/-- `n` is the integer nearest to `q`, and the even one of two that are equally near. -/
structure NearestInteger (q : ℚ) (n : Nat) : Prop where
  above : (n : ℚ) - 1 / 2 ≤ q
  below : q ≤ n + 1 / 2
  odd : n % 2 = 1 → (n : ℚ) - 1 / 2 < q ∧ q < n + 1 / 2

/-- The nearest integer is found, and of two that are equally near the even one. -/
theorem roundHalfEven_eq (hden : 0 < den) {n : Nat} (h : NearestInteger (num / den) n) :
    roundHalfEven num den = n := by
  have hden' : (0 : ℚ) < den := by exact_mod_cast hden
  obtain ⟨habove, hbelow, hodd⟩ := h
  rw [le_div_iff₀ hden'] at habove
  rw [div_le_iff₀ hden'] at hbelow
  rw [lt_div_iff₀ hden', div_lt_iff₀ hden'] at hodd
  have hsplit : (num : ℚ) = den * (num / den : Nat) + (num % den : Nat) := by
    exact_mod_cast (Nat.div_add_mod num den).symm
  have hrest : ((num % den : Nat) : ℚ) < den := by exact_mod_cast Nat.mod_lt num hden
  have hrest' : (0 : ℚ) ≤ (num % den : Nat) := by positivity
  rw [hsplit] at habove hbelow hodd
  rw [roundHalfEven]
  generalize num / den = quotient at *
  generalize num % den = rest at *
  -- the quotient is `n` or one less
  have hle : quotient ≤ n := by
    have : (quotient : ℚ) < n + 1 := by nlinarith
    exact_mod_cast Nat.lt_succ_iff.1 (by exact_mod_cast this)
  have hge : n ≤ quotient + 1 := by
    have : (n : ℚ) < quotient + 2 := by nlinarith
    exact Nat.lt_succ_iff.1 (by exact_mod_cast this)
  obtain rfl | rfl : n = quotient ∨ n = quotient + 1 := by omega
  · have htwice : 2 * rest ≤ den := by
      have : (2 : ℚ) * rest ≤ den := by linarith
      exact_mod_cast this
    have htie : n % 2 = 1 → 2 * rest < den := fun h => by
      have : (2 : ℚ) * rest < den := by linarith [(hodd h).2]
      exact_mod_cast this
    split_ifs <;> omega
  · have htwice : den ≤ 2 * rest := by
      have : (den : ℚ) ≤ 2 * rest := by
        push_cast at habove
        linarith
      exact_mod_cast this
    have htie : (quotient + 1) % 2 = 1 → den < 2 * rest := fun h => by
      have : (den : ℚ) < 2 * rest := by
        have hlow := (hodd h).1
        push_cast at hlow
        linarith
      exact_mod_cast this
    split_ifs <;> omega

/-- The word of a quotient, given the power of two at which it is rounded. -/
theorem ofQuotient_eq (hnum : 0 < num) (hden : 0 < den) {power : Int} {n : Nat}
    (hpower : max (binaryExponent num den - 52) (-1074) = power)
    (hnear : NearestInteger (num / den / 2 ^ power) n) :
    ofQuotient num den =
      ⟨UInt64.ofNat (min ((power + 1074).toNat * 2 ^ 52 + n) infinityWord)⟩ := by
  have hround : (if 0 ≤ power then roundHalfEven num (den * Nat.pow 2 power.toNat)
      else roundHalfEven (num * Nat.pow 2 (-power).toNat) den) = n := by
    split
    · next hle =>
      have hunit : 0 < den * Nat.pow 2 power.toNat := Nat.mul_pos hden (Nat.pow_pos two_pos)
      refine roundHalfEven_eq hunit ?_
      rwa [Nat.cast_mul, cast_pow_toNat 2 hle, ← div_div]
    · next hlt =>
      refine roundHalfEven_eq hden ?_
      rwa [Nat.cast_mul, cast_pow_neg_toNat 2 (Int.le_of_not_le hlt), ← div_eq_mul_inv,
        div_right_comm]
  rw [ofQuotient, if_neg hnum.ne']
  simp only [hpower, hround]
  rfl

end Quotient

/-! ## Results of rounding -/

/-- The numbers that rounding leads to: the finite ones and positive infinity. -/
def IsRounded (x : Binary64) : Prop := x.isFinite = true ∨ x = infinity

theorem magnitude_ofWord {word : Nat} (h : word < infinityWord) :
    magnitude ⟨UInt64.ofNat word⟩ = word := by
  have hrange : word < 2 ^ 63 := h.trans (by decide)
  rw [magnitude, UInt64.toNat_ofNat_of_lt' (hrange.trans (by decide))]
  exact Nat.mod_eq_of_lt hrange

/-- A word up to that of infinity is a rounded number. -/
theorem isRounded_ofWord (word : Nat) :
    IsRounded ⟨UInt64.ofNat (min word infinityWord)⟩ := by
  obtain hlt | hge := Nat.lt_or_ge word infinityWord
  · left
    rw [Nat.min_eq_left hlt.le, isFinite, magnitude_ofWord hlt]
    exact decide_eq_true hlt
  · right
    rw [Nat.min_eq_right hge]
    rfl

/-- Rounding gives a rounded number. -/
theorem ofQuotient_isRounded (num den : Nat) : (ofQuotient num den).IsRounded := by
  rw [ofQuotient]
  split
  · exact .inl rfl
  · exact isRounded_ofWord _

/-- What a decimal is read as is finite or infinity. -/
theorem ofScientific_isRounded (mantissa : Nat) (exponent : Int) :
    (ofScientific mantissa exponent).IsRounded := by
  rw [ofScientific]
  split
  · exact .inl rfl
  · dsimp only
    split
    · exact .inr rfl
    split
    · exact .inl rfl
    split
    · exact ofQuotient_isRounded _ _
    · exact ofQuotient_isRounded _ _

/-! ## The interval of a number -/

section Interval

variable {x : Binary64}

/-- The least rational that may round to a number: half a unit below it, or a quarter of one where
the units below it are smaller. -/
def lowEnd (x : Binary64) : ℚ :=
  (4 * x.significand - if x.significand = 2 ^ 52 ∧ 1 < x.exponentField then 1 else 2) *
    2 ^ (x.scale - 2)

/-- The greatest rational that may round to a number: half a unit above it. -/
def highEnd (x : Binary64) : ℚ := (4 * x.significand + 2) * 2 ^ (x.scale - 2)

/-- The rationals that round to a number. The ends are among them if the significand is even. -/
structure Attracts (x : Binary64) (q : ℚ) : Prop where
  low : x.lowEnd ≤ q
  high : q ≤ x.highEnd
  odd : x.significand % 2 = 1 → x.lowEnd < q ∧ q < x.highEnd

/-- A unit of the significand. -/
theorem two_zpow_sub_two (power : Int) : (2 : ℚ) ^ (power - 2) = 2 ^ power / 4 := by
  rw [zpow_sub₀ two_ne_zero]
  norm_num

/-- The upper end lies half a unit above. -/
theorem highEnd_eq (x : Binary64) : x.highEnd = (x.significand + 1 / 2) * 2 ^ x.scale := by
  rw [highEnd, two_zpow_sub_two]
  ring

/-- The lower end lies at most half a unit below. -/
theorem le_lowEnd (x : Binary64) : (x.significand - 1 / 2) * 2 ^ x.scale ≤ x.lowEnd := by
  have hpow : (0 : ℚ) < 2 ^ x.scale := by positivity
  rw [lowEnd, two_zpow_sub_two]
  split <;> nlinarith

/-- The lower end lies at least a quarter of a unit below. -/
theorem lowEnd_le (x : Binary64) : x.lowEnd ≤ (x.significand - 1 / 4) * 2 ^ x.scale := by
  have hpow : (0 : ℚ) < 2 ^ x.scale := by positivity
  rw [lowEnd, two_zpow_sub_two]
  split <;> nlinarith

/-- What lies between the ends is rounded to the number, even or not. -/
theorem Attracts.of_lt {q : ℚ} (hlow : x.lowEnd < q) (hhigh : q < x.highEnd) : x.Attracts q :=
  ⟨hlow.le, hhigh.le, fun _ => ⟨hlow, hhigh⟩⟩

/-- In units of its own, what a number attracts is nearest to its significand. -/
theorem Attracts.nearest {q : ℚ} (h : x.Attracts q) :
    NearestInteger (q / 2 ^ x.scale) x.significand := by
  have hpow : (0 : ℚ) < 2 ^ x.scale := by positivity
  have hle := x.le_lowEnd
  obtain ⟨hlow, hhigh, hodd⟩ := h
  rw [highEnd_eq] at hhigh hodd
  constructor
  · rw [le_div_iff₀ hpow]
    exact hle.trans hlow
  · rwa [div_le_iff₀ hpow]
  · intro hm
    rw [lt_div_iff₀ hpow, div_lt_iff₀ hpow]
    exact ⟨hle.trans_lt (hodd hm).1, (hodd hm).2⟩

/-- A number without a sign is its magnitude. -/
theorem eq_ofNat_magnitude (h : x.isNegative = false) : x = ⟨UInt64.ofNat x.magnitude⟩ := by
  obtain ⟨bits⟩ := x
  have hlt : bits.toNat < Nat.pow 2 63 := by simpa [isNegative] using h
  rw [magnitude, Nat.mod_eq_of_lt hlt, UInt64.ofNat_toNat]

theorem scale_eq (x : Binary64) : x.scale = max x.exponentField 1 - 1075 := by simp [scale]

/-- A rounding at power `power` to `n` units yields the number whose word the two make up. -/
theorem eq_of_word {power : Int} {n : Nat} (hfinite : x.isFinite = true)
    (hsign : x.isNegative = false) (hword : (power + 1074).toNat * 2 ^ 52 + n = x.magnitude) :
    (⟨UInt64.ofNat (min ((power + 1074).toNat * 2 ^ 52 + n) infinityWord)⟩ : Binary64) = x := by
  have hle : x.magnitude ≤ infinityWord := (of_decide_eq_true hfinite).le
  rw [hword, min_eq_left hle]
  exact (eq_ofNat_magnitude hsign).symm

/-- Below the least number with a full significand the units are half as large: what such a
number attracts there is rounded up to it by a carry. -/
theorem Attracts.nearest_carry {q : ℚ} (h : x.Attracts q) (hfield : 1 < x.exponentField)
    (hlt : q < 2 ^ (x.scale + 52)) :
    x.significand = 2 ^ 52 ∧ 2 ^ (x.scale + 51) ≤ q ∧
      NearestInteger (q / 2 ^ (x.scale - 1)) (2 ^ 53) := by
  have hunit : (0 : ℚ) < 2 ^ x.scale := by positivity
  have hhalf : (2 : ℚ) ^ (x.scale - 1) = 2 ^ x.scale / 2 := zpow_sub_one₀ two_ne_zero _
  have hge : 2 ^ 52 ≤ x.significand := by
    rw [significand, if_neg (by omega)]
    exact Nat.le_add_left _ _
  rw [zpow_add₀ two_ne_zero, mul_comm] at hlt
  have hsig : x.significand = 2 ^ 52 := by
    refine Nat.le_antisymm (Nat.le_of_lt_succ ?_) hge
    have : (x.significand : ℚ) < 2 ^ 52 + 1 := by
      have := x.le_lowEnd.trans h.low
      nlinarith
    exact_mod_cast this
  have hlow : (4 * 2 ^ 52 - 1) * (2 ^ x.scale / 4) ≤ q := by
    have := h.low
    rw [lowEnd, if_pos ⟨hsig, hfield⟩, two_zpow_sub_two, hsig] at this
    exact_mod_cast this
  refine ⟨hsig, ?_, ?_, ?_, fun h => absurd h (by decide)⟩
  · rw [zpow_add₀ two_ne_zero, mul_comm]
    nlinarith
  · rw [le_div_iff₀ (by positivity), hhalf]
    push_cast
    nlinarith
  · rw [div_le_iff₀ (by positivity), hhalf]
    push_cast
    nlinarith

/-- What is rounded to a number that is not zero is at least half the smallest unit. -/
theorem Attracts.pos {q : ℚ} (h : x.Attracts q) (hpos : 0 < x.significand) :
    2 ^ (x.scale - 1) ≤ q := by
  have hone : (1 : ℚ) ≤ x.significand := by exact_mod_cast hpos
  have hunit : (0 : ℚ) < 2 ^ x.scale := by positivity
  have hfrom := x.le_lowEnd.trans h.low
  rw [zpow_sub_one₀ two_ne_zero]
  nlinarith

/-- What is rounded to a number is below the next power of two. -/
theorem Attracts.lt {q : ℚ} (h : x.Attracts q) : q < 2 ^ (x.scale + 53) := by
  have hsig : (x.significand : ℚ) + 1 ≤ 2 ^ (53 : Int) := by exact_mod_cast x.significand_lt
  have hunit : (0 : ℚ) < 2 ^ x.scale := by positivity
  have hto := h.high
  rw [highEnd_eq] at hto
  rw [zpow_add₀ two_ne_zero, mul_comm]
  nlinarith

/-- A quotient is rounded to the number that attracts it. -/
theorem ofQuotient_of_attracts {num den : Nat} (hfinite : x.isFinite = true)
    (hsign : x.isNegative = false) (hpos : 0 < x.significand) (hden : 0 < den)
    (h : x.Attracts (num / den)) : ofQuotient num den = x := by
  have hscale := x.scale_eq
  have hmagnitude := x.magnitude_eq_add
  have hnum : 0 < num := by
    refine Nat.pos_of_ne_zero fun hzero => ?_
    have : (0 : ℚ) < num / den := lt_of_lt_of_le (by positivity) (h.pos hpos)
    simp [hzero] at this
  by_cases hcarry : 1 < x.exponentField ∧ (num : ℚ) / den < 2 ^ (x.scale + 52)
  · -- the units are those below the number
    obtain ⟨hsig, hle, hnear⟩ := h.nearest_carry hcarry.1 hcarry.2
    have hexp := binaryExponent_eq hnum hden hle (by convert hcarry.2 using 2; ring)
    have hpower : max (binaryExponent num den - 52) (-1074) = x.scale - 1 := by omega
    rw [ofQuotient_eq hnum hden hpower hnear]
    refine eq_of_word hfinite hsign ?_
    rw [hmagnitude, hsig]
    omega
  · -- the units are those of the number itself
    have hpower : max (binaryExponent num den - 52) (-1074) = x.scale := by
      obtain ⟨hreached, hbelow⟩ := binaryExponent_spec hnum hden
      have hlt := (zpow_lt_zpow_iff_right₀ (one_lt_two (α := ℚ))).1 (hreached.trans_lt h.lt)
      by_cases hfield : 1 < x.exponentField
      · have hle : (2 : ℚ) ^ (x.scale + 52) ≤ num / den := by
          simpa [hfield] using hcarry
        have hgt := (zpow_lt_zpow_iff_right₀ (one_lt_two (α := ℚ))).1 (hle.trans_lt hbelow)
        omega
      · omega
    rw [ofQuotient_eq hnum hden hpower h.nearest]
    refine eq_of_word hfinite hsign ?_
    rw [hmagnitude]
    omega

theorem ten_pow_above : ¬ (10 : ℚ) ^ (310 : Int) < 2 ^ (1024 : Int) := by
  have : ¬ 10 ^ 310 < 2 ^ 1024 := by decide +kernel
  exact_mod_cast this

theorem ten_pow_below : ¬ (2 : ℚ) ^ (-1075 : Int) ≤ 10 ^ (-331 : Int) := by
  have : ¬ 10 ^ 331 ≤ 2 ^ 1075 := by decide +kernel
  rw [zpow_neg, zpow_neg, inv_le_inv₀ (by positivity) (by positivity)]
  exact_mod_cast this

/-- A decimal is read as the number that attracts it. -/
theorem ofScientific_of_attracts {mantissa : Nat} {exponent : Int} (hfinite : x.isFinite = true)
    (hsign : x.isNegative = false) (hpos : 0 < x.significand)
    (h : x.Attracts (mantissa * 10 ^ exponent)) : ofScientific mantissa exponent = x := by
  have hscale := x.scale_eq
  have hfield := x.exponentField_lt hfinite
  have htiny : (2 : ℚ) ^ (-1075 : Int) ≤ mantissa * 10 ^ exponent :=
    (zpow_le_zpow_right₀ one_le_two (by omega)).trans (h.pos hpos)
  have hhuge : (mantissa : ℚ) * 10 ^ exponent < 2 ^ (1024 : Int) :=
    h.lt.trans_le (zpow_le_zpow_right₀ one_le_two (by omega))
  have hmantissa : 0 < mantissa := by
    refine Nat.pos_of_ne_zero fun hzero => ?_
    have : (0 : ℚ) < mantissa * 10 ^ exponent := lt_of_lt_of_le (by positivity) htiny
    simp [hzero] at this
  obtain ⟨hfrom, hto⟩ := zpow_place hmantissa exponent
  -- the place of the first digit is one that numbers of the format have
  have hnotLarge : ¬ 310 < exponent + (Nat.toDigits 10 mantissa).length := fun hlarge =>
    ten_pow_above (((zpow_le_zpow_right₀ (by norm_num) (by omega)).trans hfrom).trans_lt hhuge)
  have hnotSmall : ¬ exponent + (Nat.toDigits 10 mantissa).length < -330 := fun hsmall =>
    ten_pow_below (htiny.trans (hto.le.trans (zpow_le_zpow_right₀ (by norm_num) (by omega))))
  rw [ofScientific, if_neg hmantissa.ne']
  simp only [Int.ofNat_eq_natCast]
  rw [if_neg hnotLarge, if_neg hnotSmall]
  split
  · next hle =>
    refine ofQuotient_of_attracts hfinite hsign hpos one_pos ?_
    rwa [Nat.cast_mul, cast_pow_toNat 10 hle, Nat.cast_one, div_one]
  · next hlt =>
    refine ofQuotient_of_attracts hfinite hsign hpos (Nat.pow_pos (by decide)) ?_
    rwa [cast_pow_neg_toNat 10 (Int.le_of_not_le hlt), div_inv_eq_mul]

end Interval

end Binary64

end ScriptLint
