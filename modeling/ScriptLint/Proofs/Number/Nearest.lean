import ScriptLint.Proofs.Number.Rounding

/-!
# Rounding leads to the nearest number

Every finite number stands for a rational (`Binary64.toRat`), and of all of them the one that a
quotient is rounded to is the nearest; of two that are equally near it is the one with the even
significand (`Binary64.ofQuotient_isNearest`).

A quotient is rounded to a multiple of a power of two, its grid. The numbers that are no multiples
of it are smaller than the power of two at or below the quotient, which is on the grid
(`Binary64.onGrid_or_below`). So only the multiples have to be compared, and there the rounding is
that of integers (`Binary64.NearestInteger`).
-/

namespace ScriptLint

namespace Binary64

/-- The rational that a finite number stands for. -/
def toRat (x : Binary64) : ℚ :=
  (if x.isNegative then -1 else 1) * (x.significand * 2 ^ x.scale)

/-- `x.IsNearest q` says that no finite number is nearer to `q` than `x`, and that another one is as
near only if the significand of `x` is even. -/
structure IsNearest (x : Binary64) (q : ℚ) : Prop where
  finite : x.isFinite = true
  closest : ∀ y : Binary64, y.isFinite = true → |x.toRat - q| ≤ |y.toRat - q|
  even : ∀ y : Binary64, y.isFinite = true → y.toRat ≠ x.toRat →
    |x.toRat - q| = |y.toRat - q| → x.significand % 2 = 0

/-! ## Integers -/

theorem roundHalfEven_nearest (num : Nat) {den : Nat} (hden : 0 < den) :
    NearestInteger (num / den) (roundHalfEven num den) := by
  have hden' : (0 : ℚ) < den := by exact_mod_cast hden
  have hsplit : (num : ℚ) / den = (num / den : Nat) + (num % den : Nat) / den := by
    have heq : (num : ℚ) = den * (num / den : Nat) + (num % den : Nat) := by
      exact_mod_cast (Nat.div_add_mod num den).symm
    rw [heq]
    field_simp
  have hrest : ((num % den : Nat) : ℚ) / den < 1 := by
    rw [div_lt_one hden']
    exact_mod_cast Nat.mod_lt num hden
  have hnonneg : (0 : ℚ) ≤ ((num % den : Nat) : ℚ) / den := by positivity
  rw [hsplit, roundHalfEven]
  generalize num / den = quotient at *
  generalize num % den = rest at *
  have hcast : ((quotient + 1 : Nat) : ℚ) = quotient + 1 := Nat.cast_succ quotient
  split_ifs with hless hmore heven
  · have hhalf : (rest : ℚ) / den < 1 / 2 := by
      rw [div_lt_div_iff₀ hden' two_pos]
      exact_mod_cast (by omega : rest * 2 < 1 * den)
    exact ⟨by linarith, by linarith, fun _ => ⟨by linarith, by linarith⟩⟩
  · have hhalf : 1 / 2 < (rest : ℚ) / den := by
      rw [div_lt_div_iff₀ two_pos hden']
      exact_mod_cast (by omega : 1 * den < rest * 2)
    exact ⟨by linarith, by linarith, fun _ => ⟨by linarith, by linarith⟩⟩
  · have hhalf : (rest : ℚ) / den = 1 / 2 := by
      rw [div_eq_div_iff hden'.ne' two_ne_zero]
      exact_mod_cast (by omega : rest * 2 = 1 * den)
    exact ⟨by linarith, by linarith, fun hodd => by omega⟩
  · have hhalf : (rest : ℚ) / den = 1 / 2 := by
      rw [div_eq_div_iff hden'.ne' two_ne_zero]
      exact_mod_cast (by omega : rest * 2 = 1 * den)
    exact ⟨by linarith, by linarith, fun hodd => by omega⟩

namespace NearestInteger

variable {q : ℚ} {n : Nat}

theorem abs_le_half (h : NearestInteger q n) : |(n : ℚ) - q| ≤ 1 / 2 := by
  rw [abs_le]
  exact ⟨by linarith [h.below], by linarith [h.above]⟩

theorem abs_lt_half (h : NearestInteger q n) (hodd : n % 2 = 1) : |(n : ℚ) - q| < 1 / 2 := by
  rw [abs_lt]
  exact ⟨by linarith [(h.odd hodd).2], by linarith [(h.odd hodd).1]⟩

/-- Another integer is not nearer than one half. -/
theorem half_le (h : NearestInteger q n) {k : ℤ} (hk : k ≠ n) : 1 / 2 ≤ |(k : ℚ) - q| := by
  have hone : (1 : ℚ) ≤ |(k : ℚ) - n| := by
    have hint : 1 ≤ |k - n| := Int.one_le_abs (sub_ne_zero.2 hk)
    exact_mod_cast hint
  have htriangle := abs_sub_le (k : ℚ) q n
  have hhalf := h.abs_le_half
  rw [abs_sub_comm] at hhalf
  linarith

theorem le_abs (h : NearestInteger q n) (k : ℤ) : |(n : ℚ) - q| ≤ |(k : ℚ) - q| := by
  by_cases hk : k = n
  · rw [hk, Int.cast_natCast]
  · exact h.abs_le_half.trans (h.half_le hk)

end NearestInteger

/-! ## Grids -/

theorem abs_toRat (x : Binary64) : |x.toRat| = x.significand * 2 ^ x.scale := by
  have hnonneg : (0 : ℚ) ≤ x.significand * 2 ^ x.scale := by positivity
  rw [toRat, abs_mul, abs_of_nonneg hnonneg]
  split <;> simp

/-- A number is a multiple of a power of two, or it is smaller than the numbers that have this power
for a unit. -/
theorem onGrid_or_below (y : Binary64) (power : Int) :
    (∃ k : ℤ, y.toRat = k * 2 ^ power) ∨ y.scale < power ∧ |y.toRat| < 2 ^ (power + 52) := by
  obtain hle | hlt := le_or_gt power y.scale
  · left
    have hscale : (2 : ℚ) ^ y.scale = (2 ^ (y.scale - power).toNat : ℤ) * 2 ^ power := by
      rw [Int.cast_pow, Int.cast_ofNat, ← zpow_natCast, Int.toNat_of_nonneg (by omega),
        ← zpow_add₀ two_ne_zero, sub_add_cancel]
    refine ⟨(if y.isNegative then -1 else 1) *
      (y.significand * 2 ^ (y.scale - power).toNat), ?_⟩
    rw [toRat, hscale]
    split <;> push_cast <;> ring
  · right
    have hsig : (y.significand : ℚ) < 2 ^ (53 : Int) := by exact_mod_cast y.significand_lt
    refine ⟨hlt, ?_⟩
    rw [abs_toRat]
    calc (y.significand : ℚ) * 2 ^ y.scale
        < 2 ^ (53 : Int) * 2 ^ y.scale := by gcongr
      _ ≤ 2 ^ (53 : Int) * 2 ^ (power - 1) := by
          gcongr
          · exact one_le_two
          · omega
      _ = 2 ^ (power + 52) := by
          rw [← zpow_add₀ two_ne_zero]
          congr 1
          ring

/-! ## The word of a rounded number -/

section Word

variable {x : Binary64} {a n : Nat}

/-- A word is made up in one way of an exponent and a significand of up to 53 bits, except that the
carry of a full significand stands for one more in the exponent. -/
theorem parts_of_magnitude (h : x.magnitude = a * 2 ^ 52 + n) (hn : n ≤ 2 ^ 53)
    (ha : a = 0 ∨ 2 ^ 52 ≤ n) :
    (max x.exponentField 1 - 1 = a ∧ x.significand = n) ∨
      (max x.exponentField 1 - 1 = a + 1 ∧ x.significand = 2 ^ 52 ∧ n = 2 ^ 53) := by
  have hlt := x.significand_lt
  have heq := x.magnitude_eq_add
  have hfull : max x.exponentField 1 - 1 = 0 ∨ 2 ^ 52 ≤ x.significand := by
    rw [significand]
    split
    · next hzero => exact .inl (by rw [hzero]; rfl)
    · exact .inr (Nat.le_add_left _ _)
  rw [h] at heq
  generalize max x.exponentField 1 - 1 = b at *
  generalize x.significand = m at *
  omega

theorem toRat_of_magnitude (h : x.magnitude = a * 2 ^ 52 + n) (hn : n ≤ 2 ^ 53)
    (ha : a = 0 ∨ 2 ^ 52 ≤ n) (hsign : x.isNegative = false) :
    x.toRat = n * 2 ^ ((a : Int) - 1074) ∧ x.significand % 2 = n % 2 := by
  have hscale : x.scale = (max x.exponentField 1 - 1 : Nat) - 1074 := by
    rw [scale_eq]
    omega
  rw [toRat, hsign, hscale, if_neg Bool.false_ne_true, one_mul]
  obtain ⟨hb, hm⟩ | ⟨hb, hm, rfl⟩ := parts_of_magnitude h hn ha
  · rw [hb, hm]
    exact ⟨rfl, rfl⟩
  · rw [hb, hm]
    refine ⟨?_, by decide⟩
    rw [show ((a + 1 : Nat) : Int) - 1074 = 1 + (a - 1074) by omega, zpow_add₀ two_ne_zero,
      zpow_one]
    push_cast
    ring

end Word

/-! ## The nearest number -/

/-- The distance from a multiple of a power of two, in units of that power. -/
theorem abs_grid_sub (k q : ℚ) (power : Int) :
    |k * 2 ^ power - q| = |k - q / 2 ^ power| * 2 ^ power := by
  have hpow : (0 : ℚ) < 2 ^ power := by positivity
  rw [← abs_of_pos hpow, ← abs_mul, abs_of_pos hpow, sub_mul, div_mul_cancel₀ q hpow.ne']

section Nearest

variable {x y : Binary64} {q : ℚ} {power : Int} {n : Nat}

/-- A number off the grid is further away than the power of two at or below `q`. -/
theorem lt_abs_of_below (hnear : NearestInteger (q / 2 ^ power) n)
    (hlow : power = -1074 ∨ 2 ^ (power + 52) ≤ q) (hscale : y.scale < power)
    (hy : |y.toRat| < 2 ^ (power + 52)) : |(n : ℚ) * 2 ^ power - q| < |y.toRat - q| := by
  have hle : (2 : ℚ) ^ (power + 52) ≤ q := by
    have hleast := y.scale_eq
    exact hlow.resolve_left (by omega)
  have hgrid : (2 : ℚ) ^ (power + 52) = (2 ^ 52 : ℤ) * 2 ^ power := by
    rw [zpow_add₀ two_ne_zero, mul_comm]
    norm_cast
  have hbelow := (abs_lt.1 hy).2
  calc |(n : ℚ) * 2 ^ power - q|
      ≤ |((2 ^ 52 : ℤ) : ℚ) * 2 ^ power - q| := by
        rw [abs_grid_sub, abs_grid_sub]
        exact mul_le_mul_of_nonneg_right (hnear.le_abs _) (by positivity)
    _ = q - 2 ^ (power + 52) := by rw [← hgrid, abs_sub_comm, abs_of_nonneg (by linarith)]
    _ < q - y.toRat := by linarith
    _ ≤ |y.toRat - q| := by
        rw [abs_sub_comm]
        exact le_abs_self _

/-- A number is nearest if it is so on its grid, and if all that is off the grid is below. -/
theorem isNearest_of_grid (hfinite : x.isFinite = true) (hx : x.toRat = n * 2 ^ power)
    (hparity : x.significand % 2 = n % 2) (hnear : NearestInteger (q / 2 ^ power) n)
    (hlow : power = -1074 ∨ 2 ^ (power + 52) ≤ q) : x.IsNearest q := by
  have hpow : (0 : ℚ) < 2 ^ power := by positivity
  refine ⟨hfinite, fun y _ => ?_, fun y _ hne htie => ?_⟩
  · obtain ⟨k, hk⟩ | ⟨hscale, hy⟩ := y.onGrid_or_below power
    · rw [hx, hk, abs_grid_sub, abs_grid_sub]
      exact mul_le_mul_of_nonneg_right (hnear.le_abs k) hpow.le
    · rw [hx]
      exact (lt_abs_of_below hnear hlow hscale hy).le
  · obtain ⟨k, hk⟩ | ⟨hscale, hy⟩ := y.onGrid_or_below power
    · have hkn : k ≠ n := by
        rintro rfl
        exact hne (by rw [hk, hx, Int.cast_natCast])
      rw [hx, hk, abs_grid_sub, abs_grid_sub] at htie
      have hhalf := hnear.half_le hkn
      rw [← mul_right_cancel₀ hpow.ne' htie] at hhalf
      rw [hparity]
      by_contra hodd
      exact absurd (hnear.abs_lt_half (Nat.mod_two_ne_zero.1 hodd)) (not_lt.2 hhalf)
    · rw [hx] at htie
      exact absurd htie (lt_abs_of_below hnear hlow hscale hy).ne

end Nearest

section Quotient

variable {num den : Nat}

theorem exists_nearestInteger (num : Nat) (hden : 0 < den) (power : Int) :
    ∃ n, NearestInteger (num / den / 2 ^ power) n := by
  obtain hle | hlt := le_or_gt 0 power
  · have hunit : 0 < den * Nat.pow 2 power.toNat := Nat.mul_pos hden (Nat.pow_pos two_pos)
    have hnear := roundHalfEven_nearest num hunit
    rw [Nat.cast_mul, cast_pow_toNat 2 hle, ← div_div] at hnear
    exact ⟨_, hnear⟩
  · have hnear := roundHalfEven_nearest (num * Nat.pow 2 (-power).toNat) hden
    rw [Nat.cast_mul, cast_pow_neg_toNat 2 hlt.le, mul_div_right_comm, ← div_eq_mul_inv] at hnear
    exact ⟨_, hnear⟩

/-- The grid of a quotient, and what it is rounded to there. -/
theorem ofQuotient_rounds (hnum : 0 < num) (hden : 0 < den) :
    ∃ (power : Int) (n : Nat), -1074 ≤ power ∧
      (power = -1074 ∨ (2 : ℚ) ^ (power + 52) ≤ num / den) ∧
      (num : ℚ) / den < 2 ^ (power + 53) ∧ NearestInteger (num / den / 2 ^ power) n ∧
      ofQuotient num den =
        ⟨UInt64.ofNat (min ((power + 1074).toNat * 2 ^ 52 + n) infinityWord)⟩ := by
  obtain ⟨hle, hlt⟩ := binaryExponent_spec hnum hden
  obtain ⟨n, hnear⟩ := exists_nearestInteger num hden (max (binaryExponent num den - 52) (-1074))
  refine ⟨_, n, le_max_right _ _, ?_, ?_, hnear, ofQuotient_eq hnum hden rfl hnear⟩
  · obtain hpower | hpower := max_choice (binaryExponent num den - 52) (-1074)
    · right
      rwa [hpower, sub_add_cancel]
    · exact .inl hpower
  · refine hlt.trans_le (zpow_le_zpow_right₀ one_le_two ?_)
    have := le_max_left (binaryExponent num den - 52) (-1074)
    omega

/-- On its grid a quotient has at most 53 bits, and just so many above the least grid. -/
theorem NearestInteger.significand_bounds {q : ℚ} {power : Int} {n : Nat}
    (hnear : NearestInteger (q / 2 ^ power) n) (hlt : q < 2 ^ (power + 53)) :
    n ≤ 2 ^ 53 ∧ (2 ^ (power + 52) ≤ q → 2 ^ 52 ≤ n) := by
  have hpow : (0 : ℚ) < 2 ^ power := by positivity
  constructor
  · have hq : q / 2 ^ power < 2 ^ 53 := by
      rw [div_lt_iff₀ hpow, mul_comm]
      rwa [zpow_add₀ two_ne_zero] at hlt
    have hn : (n : ℚ) < 2 ^ 53 + 1 := by linarith [hnear.above]
    exact Nat.lt_succ_iff.1 (by exact_mod_cast hn)
  · intro hle
    have hq : 2 ^ 52 ≤ q / 2 ^ power := by
      rw [le_div_iff₀ hpow, mul_comm]
      rwa [zpow_add₀ two_ne_zero] at hle
    have hn : (2 : ℚ) ^ 52 < n + 1 := by linarith [hnear.below]
    exact Nat.lt_succ_iff.1 (by exact_mod_cast hn)

/-- A quotient that is not rounded to infinity is rounded to the nearest number. -/
theorem ofQuotient_isNearest (hden : 0 < den) (hfinite : (ofQuotient num den).isFinite = true) :
    (ofQuotient num den).IsNearest (num / den) := by
  obtain rfl | hnum := Nat.eq_zero_or_pos num
  · have hzero : ofQuotient 0 den = zero := if_pos rfl
    have hvalue : zero.toRat = 0 := by
      have hsig : zero.significand = 0 := by decide
      rw [toRat, hsig]
      simp
    rw [hzero] at hfinite ⊢
    refine ⟨hfinite, fun y _ => ?_, fun _ _ _ _ => by decide⟩
    rw [hvalue]
    simp
  · obtain ⟨power, n, hleast, hlow, hlt, hnear, hword⟩ := ofQuotient_rounds hnum hden
    obtain ⟨hn, hfull⟩ := hnear.significand_bounds hlt
    have hrange : (power + 1074).toNat * 2 ^ 52 + n < infinityWord := by
      by_contra hge
      rw [hword, Nat.min_eq_right (not_lt.1 hge)] at hfinite
      exact absurd hfinite (by decide)
    rw [Nat.min_eq_left hrange.le] at hword
    have hmagnitude : (ofQuotient num den).magnitude = (power + 1074).toNat * 2 ^ 52 + n := by
      rw [hword, magnitude_ofWord hrange]
    have hsign : (ofQuotient num den).isNegative = false := by
      rw [hword, isNegative, UInt64.toNat_ofNat_of_lt' (hrange.trans (by decide))]
      exact decide_eq_false (not_le.2 (hrange.trans (by decide)))
    obtain ⟨hvalue, hparity⟩ := toRat_of_magnitude hmagnitude hn
      (hlow.imp (fun h => by rw [h]; rfl) hfull) hsign
    rw [show ((power + 1074).toNat : Int) - 1074 = power by omega] at hvalue
    exact isNearest_of_grid hfinite hvalue hparity hnear hlow

end Quotient

/-- A natural number of 64 bits is far below infinity. -/
theorem isFinite_ofNat {n : Nat} (h : n < 2 ^ 64) : (ofNat n).isFinite = true := by
  obtain rfl | hpos := Nat.eq_zero_or_pos n
  · rfl
  obtain ⟨power, k, hleast, hlow, hlt, hnear, hword⟩ := ofQuotient_rounds hpos one_pos
  rw [Nat.cast_one, div_one] at hlow hlt hnear
  have hpower : power < 12 := by
    obtain rfl | hle := hlow
    · decide
    · have hn : (n : ℚ) < 2 ^ (64 : Int) := by exact_mod_cast h
      have := (zpow_lt_zpow_iff_right₀ one_lt_two).1 (hle.trans_lt hn)
      omega
  have hk := (hnear.significand_bounds hlt).1
  have hrange : (power + 1074).toNat * 2 ^ 52 + k < infinityWord := by
    have hfield : (power + 1074).toNat ≤ 1085 := by omega
    calc (power + 1074).toNat * 2 ^ 52 + k ≤ 1085 * 2 ^ 52 + 2 ^ 53 := by gcongr
      _ < infinityWord := by decide
  rw [ofNat, hword, Nat.min_eq_left hrange.le, isFinite, magnitude_ofWord hrange]
  exact decide_eq_true hrange

/-- A natural number of 64 bits is rounded to the nearest number. -/
theorem ofNat_isNearest {n : Nat} (h : n < 2 ^ 64) : (ofNat n).IsNearest n := by
  have hfinite : (ofQuotient n 1).isFinite = true := isFinite_ofNat h
  have hnearest := ofQuotient_isNearest one_pos hfinite
  rwa [Nat.cast_one, div_one] at hnearest

/-! ## What is no number -/

/-- A word above infinity stands for no number. -/
def isNaN (x : Binary64) : Bool := infinityWord < x.magnitude

theorem IsRounded.isNaN_eq_false {x : Binary64} (h : x.IsRounded) : x.isNaN = false := by
  obtain hfinite | rfl := h
  · exact decide_eq_false (not_lt.2 (of_decide_eq_true hfinite).le)
  · decide

end Binary64

end ScriptLint
