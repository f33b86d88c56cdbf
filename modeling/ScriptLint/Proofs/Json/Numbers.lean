import ScriptLint.Proofs.Json.Grammar
import ScriptLint.Proofs.Number.ReadBack

/-!
# The texts of numbers

Numbers are written as the grammar asks for, and what is written stands for the number: the text
of a finite number is one of the number itself (`numberText_jsonChars`), and the digits of a
natural number are one of that integer (`numberText_toDigits`). Whichever way the shortest decimal
is laid out, as digits around a point or with an exponent, its value as a rational is the same.
-/

namespace ScriptLint

/-! ## Digits -/

/-- What the library calls a digit is one. -/
theorem isDecimalDigit_of_isDigit {c : Char} (h : c.isDigit = true) : isDecimalDigit c = true := by
  simp only [Char.isDigit, Bool.and_eq_true, decide_eq_true_iff] at h
  have hrange : '0' ≤ c ∧ c ≤ '9' := h
  have hle : c.toNat ≤ 57 := UInt32.le_iff_toNat_le.1 h.2
  simp only [isDecimalDigit, isDigitIn, digitValue, if_pos hrange, decide_eq_true_iff]
  have : '0'.toNat = 48 := rfl
  omega

theorem isDecimalDigit_of_mem_toDigits {n : Nat} {c : Char} (h : c ∈ Nat.toDigits 10 n) :
    isDecimalDigit c = true :=
  isDecimalDigit_of_isDigit (Nat.isDigit_of_mem_toDigits (by decide) (by decide) h)

theorem isDecimalDigit_of_mem_replicate {n : Nat} {c : Char} (h : c ∈ List.replicate n '0') :
    isDecimalDigit c = true := by
  rw [List.eq_of_mem_replicate h]
  decide

/-- The digits in front count for a power of the base more. -/
theorem numberOfDigits_append (base : Nat) (ds es : List Char) :
    numberOfDigits base (ds ++ es) =
      numberOfDigits base ds * base ^ es.length + numberOfDigits base es := by
  induction es using List.reverseRecOn with
  | nil => simp [numberOfDigits]
  | append_singleton es c ih =>
    simp only [numberOfDigits, ← List.append_assoc, List.foldl_append, List.foldl_cons,
      List.foldl_nil, List.length_append, List.length_singleton] at ih ⊢
    rw [ih, pow_succ]
    ring

theorem digitValue_digitChar {d : Nat} (h : d < 10) : digitValue d.digitChar = d := by
  decide +revert

/-- The digits of a number denote it. -/
theorem numberOfDigits_toDigits (n : Nat) : numberOfDigits 10 (Nat.toDigits 10 n) = n := by
  induction n using Nat.strongRecOn with
  | ind n ih =>
    rw [Nat.toDigits_eq_if (by decide)]
    split
    · next hlt => simp [numberOfDigits, digitValue_digitChar hlt]
    · next hge =>
      have hlast : numberOfDigits 10 [(n % 10).digitChar] = n % 10 := by
        simp [numberOfDigits, digitValue_digitChar (Nat.mod_lt n (by decide))]
      rw [numberOfDigits_append, ih (n / 10) (by omega), hlast, List.length_singleton, pow_one]
      exact Nat.div_add_mod' n 10

/-- Zeros denote zero. -/
theorem numberOfDigits_replicate_zero (base n : Nat) :
    numberOfDigits base (List.replicate n '0') = 0 := by
  induction n with
  | zero => rfl
  | succ n ih =>
    rw [List.replicate_succ', numberOfDigits_append, ih, zero_mul, zero_add]
    exact Nat.zero_mul base

/-- The digits of a positive number do not start with a zero. -/
theorem head?_toDigits_ne {n : Nat} (h : 0 < n) : (Nat.toDigits 10 n).head? ≠ some '0' := by
  induction n using Nat.strongRecOn with
  | ind n ih =>
    rw [Nat.toDigits_eq_if (by decide)]
    split
    · next hlt =>
      intro hzero
      have hvalue := digitValue_digitChar hlt
      rw [Option.some.inj hzero] at hvalue
      exact h.ne hvalue
    · next hge =>
      rw [List.head?_append_of_ne_nil _ Nat.toDigits_ne_nil]
      exact ih (n / 10) (by omega) (by omega)

/-! ## The layouts of a decimal -/

namespace Json

/-- The rational that a number stands for. -/
def Magnitude.value (m : Magnitude) : ℚ :=
  numberOfDigits 10 (m.whole ++ m.places) *
    10 ^ ((m.exponent.map Exponent.power).getD 0 - Int.ofNat m.places.length)

/-- A number with a fraction or an exponent, which is read as a real. -/
def Magnitude.IsReal (m : Magnitude) : Prop := ¬ (m.places = [] ∧ m.exponent = none)

end Json

namespace Decimal

open Json (Magnitude)

variable {d : Decimal}

/-- A decimal without a leading zero, unless it is a zero alone. -/
def Proper (d : Decimal) : Prop := d.digits = 0 → d.exponent = 0

theorem digitChars_ne_nil (d : Decimal) : d.digitChars ≠ [] := Nat.toDigits_ne_nil

/-- The digits of a decimal denote its coefficient. -/
theorem numberOfDigits_digitChars (d : Decimal) : numberOfDigits 10 d.digitChars = d.digits :=
  numberOfDigits_toDigits d.digits

theorem isDecimalDigit_of_mem_digitChars {c : Char} (h : c ∈ d.digitChars) :
    isDecimalDigit c = true :=
  isDecimalDigit_of_mem_toDigits h

/-- Digits before the point, followed by zeros up to it. -/
theorem exists_magnitude_large (hproper : d.Proper) (hexponent : 0 ≤ d.exponent) :
    ∃ m : Magnitude, m.text = d.digitChars ++ List.replicate d.exponent.toNat '0' ++ ['.', '0'] ∧
      m.IsReal ∧ m.value = d.value := by
  have hdecimal : ∀ c ∈ d.digitChars ++ List.replicate d.exponent.toNat '0',
      isDecimalDigit c = true := fun c hc =>
    (List.mem_append.1 hc).elim isDecimalDigit_of_mem_digitChars isDecimalDigit_of_mem_replicate
  have hleading : d.digitChars ++ List.replicate d.exponent.toNat '0' = ['0'] ∨
      (d.digitChars ++ List.replicate d.exponent.toNat '0' ≠ [] ∧
        (d.digitChars ++ List.replicate d.exponent.toNat '0').head? ≠ some '0') := by
    obtain hzero | hpos := Nat.eq_zero_or_pos d.digits
    · refine .inl ?_
      rw [hproper hzero, digitChars, hzero]
      rfl
    · refine .inr ⟨by simp [digitChars_ne_nil], ?_⟩
      rw [List.head?_append_of_ne_nil _ d.digitChars_ne_nil]
      exact head?_toDigits_ne hpos
  refine ⟨⟨_, ['0'], none, hdecimal, hleading, List.forall_mem_singleton.2 rfl, by simp⟩,
    ?_, ?_, ?_⟩
  · simp [Magnitude.text]
  · simp [Magnitude.IsReal]
  · have hzeros : (10 : ℚ) ^ d.exponent = 10 ^ d.exponent.toNat := by
      rw [← zpow_natCast, Int.toNat_of_nonneg hexponent]
    have hlast : numberOfDigits 10 ['0'] = 0 := rfl
    simp only [Magnitude.value, numberOfDigits_append, numberOfDigits_digitChars,
      numberOfDigits_replicate_zero, hlast, List.length_replicate, List.length_singleton, value,
      hzeros]
    norm_num
    ring

/-- Zeros between the point and the digits. -/
theorem exists_magnitude_small
    (hsmall : d.exponent + Int.ofNat d.digitChars.length ≤ 0) :
    ∃ m : Magnitude, m.text = '0' :: '.' ::
        (List.replicate (-(d.exponent + Int.ofNat d.digitChars.length)).toNat '0' ++ d.digitChars) ∧
      m.IsReal ∧ m.value = d.value := by
  generalize hcount : (-(d.exponent + Int.ofNat d.digitChars.length)).toNat = count
  have hne : List.replicate count '0' ++ d.digitChars ≠ [] := by simp [digitChars_ne_nil]
  have hdecimal : ∀ c ∈ List.replicate count '0' ++ d.digitChars, isDecimalDigit c = true :=
    fun c hc => (List.mem_append.1 hc).elim isDecimalDigit_of_mem_replicate
      isDecimalDigit_of_mem_digitChars
  refine ⟨⟨['0'], _, none, List.forall_mem_singleton.2 rfl, .inl rfl, hdecimal, by simp⟩,
    ?_, ?_, ?_⟩
  · simp [Magnitude.text, hne]
  · exact fun h => hne h.1
  · have hzero : numberOfDigits 10 ['0'] = 0 := rfl
    have hlength : -Int.ofNat (count + d.digitChars.length) = d.exponent := by
      simp only [Int.ofNat_eq_natCast] at *
      omega
    simp only [Magnitude.value, numberOfDigits_append, numberOfDigits_digitChars,
      numberOfDigits_replicate_zero, hzero, List.length_append, List.length_replicate,
      Option.map_none, Option.getD_none, zero_sub, hlength, value, zero_mul, zero_add]

/-- The point between two digits. -/
theorem exists_magnitude_middle (hexponent : d.exponent < 0)
    (hmiddle : 0 < d.exponent + Int.ofNat d.digitChars.length) :
    ∃ m : Magnitude,
      m.text = d.digitChars.take (d.exponent + Int.ofNat d.digitChars.length).toNat ++
        '.' :: d.digitChars.drop (d.exponent + Int.ofNat d.digitChars.length).toNat ∧
      m.IsReal ∧ m.value = d.value := by
  generalize hpoint : (d.exponent + Int.ofNat d.digitChars.length).toNat = point
  simp only [Int.ofNat_eq_natCast] at *
  have hdigits : 0 < d.digits := by
    -- a single zero has no place for a point
    refine Nat.pos_of_ne_zero fun hzero => ?_
    have hone : d.digitChars.length = 1 := by
      rw [digitChars, hzero]
      rfl
    omega
  have hplaces : d.digitChars.drop point ≠ [] := by
    rw [Ne, List.drop_eq_nil_iff]
    omega
  have hleading : d.digitChars.take point ≠ [] ∧ (d.digitChars.take point).head? ≠ some '0' := by
    have hpos : point ≠ 0 := by omega
    refine ⟨by simp [hpos, digitChars_ne_nil], ?_⟩
    rw [List.head?_take, if_neg hpos]
    exact head?_toDigits_ne hdigits
  refine ⟨⟨d.digitChars.take point, d.digitChars.drop point, none,
    fun c hc => isDecimalDigit_of_mem_digitChars (List.mem_of_mem_take hc), .inr hleading,
    fun c hc => isDecimalDigit_of_mem_digitChars (List.mem_of_mem_drop hc), by simp⟩, ?_, ?_, ?_⟩
  · simp [Magnitude.text, hplaces]
  · exact fun h => hplaces h.1
  · have hlength : -((d.digitChars.drop point).length : Int) = d.exponent := by
      rw [List.length_drop]
      omega
    simp only [Magnitude.value, List.take_append_drop, numberOfDigits_digitChars, Option.map_none,
      Option.getD_none, zero_sub, Int.ofNat_eq_natCast, hlength, value]

/-- The text of a decimal without an exponent is a number of its value. -/
theorem exists_magnitude_positional (hproper : d.Proper) :
    ∃ m : Magnitude, m.text = d.positional ['.', '0'] ∧ m.IsReal ∧ m.value = d.value := by
  rw [positional]
  split
  · next hlarge => exact exists_magnitude_large hproper hlarge
  · next hlarge =>
    split
    · next hsmall => exact exists_magnitude_small hsmall
    · next hsmall =>
      exact exists_magnitude_middle (Int.lt_of_not_ge hlarge) (Int.lt_of_not_ge hsmall)

/-- The exponent of the exponential layout. -/
def exponentPart (d : Decimal) : Exponent :=
  ⟨'e', some (if 0 ≤ d.leadingPlace then '+' else '-'), Nat.toDigits 10 d.leadingPlace.natAbs⟩

/-- The power of a decimal is written as the grammar wants it. -/
theorem exponentPart_valid (d : Decimal) : d.exponentPart.Valid where
  mark := .inl rfl
  sign := by
    intro c hc
    cases hc
    split <;> decide
  nonempty := Nat.toDigits_ne_nil
  decimal := fun _ => isDecimalDigit_of_mem_toDigits

/-- The power that is written is the place of the first digit. -/
theorem power_exponentPart (d : Decimal) : d.exponentPart.power = d.leadingPlace := by
  simp only [Exponent.power, exponentPart, numberOfDigits_toDigits]
  split
  · next hle =>
    rw [if_neg (by decide)]
    exact Int.natAbs_of_nonneg hle
  · next hlt =>
    rw [if_pos rfl]
    exact Int.neg_eq_comm.1 (Int.ofNat_natAbs_of_nonpos (Int.le_of_not_le hlt)).symm

/-- With a power, one digit stands before the point and the others behind it. -/
theorem exponential_eq (d : Decimal) {digit : Char} {digits : List Char}
    (h : d.digitChars = digit :: digits) :
    d.exponential =
      digit :: ((if digits = [] then [] else '.' :: digits) ++ d.exponentPart.text) := by
  have hpower : (if 0 ≤ d.leadingPlace then ['e', '+'] else ['e', '-']) ++
      Nat.toDigits 10 d.leadingPlace.natAbs = d.exponentPart.text := by
    rw [exponentPart, Exponent.text]
    split <;> rfl
  simp only [exponential, hpower, h]
  cases digits with
  | nil => rfl
  | cons c digits => rfl

/-- The text of a decimal with an exponent is a number of its value. -/
theorem exists_magnitude_exponential (d : Decimal) :
    ∃ m : Magnitude, m.text = d.exponential ∧ m.IsReal ∧ m.value = d.value := by
  obtain ⟨digit, digits, hdigits⟩ := List.exists_cons_of_ne_nil d.digitChars_ne_nil
  have hdecimal : ∀ c ∈ digit :: digits, isDecimalDigit c = true := fun c hc =>
    isDecimalDigit_of_mem_digitChars (hdigits ▸ hc)
  have hleading : [digit] = ['0'] ∨ ([digit] ≠ [] ∧ [digit].head? ≠ some '0') := by
    by_cases hzero : digit = '0'
    · exact .inl (by rw [hzero])
    · exact .inr (by simpa using hzero)
  refine ⟨⟨[digit], digits, some d.exponentPart, fun c hc => hdecimal c (by simp_all), hleading,
    fun c hc => hdecimal c (by simp [hc]), ?_⟩, ?_, ?_, ?_⟩
  · intro e he
    cases he
    exact d.exponentPart_valid
  · rw [exponential_eq d hdigits, Magnitude.text]
    rfl
  · exact fun h => by cases h.2
  · have hplace : d.leadingPlace - Int.ofNat digits.length = d.exponent := by
      rw [leadingPlace, hdigits, List.length_cons]
      simp only [Int.ofNat_eq_natCast]
      omega
    simp only [Magnitude.value, List.singleton_append, ← hdigits, numberOfDigits_digitChars,
      Option.map_some, Option.getD_some, power_exponentPart, hplace, value]

end Decimal

/-! ## Signs -/

namespace Binary64

variable {x : Binary64} {tie : Tie}

/-- A change of sign keeps the magnitude. -/
theorem magnitude_negate (x : Binary64) : x.negate.magnitude = x.magnitude := by
  rw [magnitude, negate, UInt64.toNat_xor, Nat.pow_eq, Nat.xor_mod_two_pow]
  exact Nat.xor_zero _

/-- A negative number becomes one that is not. -/
theorem isNegative_negate (h : x.isNegative = true) : x.negate.isNegative = false := by
  have hle : 2 ^ 63 ≤ x.bits.toNat := of_decide_eq_true h
  have hlt : x.bits.toNat < 2 ^ 64 := x.bits.toNat_lt
  have htop : x.bits.toNat / 2 ^ 63 = 1 := by omega
  have hdiv : x.negate.bits.toNat / 2 ^ 63 = 0 := by
    rw [negate, UInt64.toNat_xor, Nat.xor_div_two_pow, htop]
    rfl
  rw [isNegative, decide_eq_false_iff_not, Nat.pow_eq]
  omega

/-- Two changes of sign cancel. -/
theorem negate_negate (x : Binary64) : x.negate.negate = x := by
  rw [negate, negate, UInt64.xor_assoc, UInt64.xor_self, UInt64.xor_zero]

/-- The digits of a number do not depend on its sign. -/
theorem shortest_negate (x : Binary64) (tie : Tie) : x.negate.shortest tie = x.shortest tie := by
  have hfield : x.negate.exponentField = x.exponentField := by
    rw [exponentField, exponentField, magnitude_negate]
  have hsignificand : x.negate.significand = x.significand := by
    rw [significand, significand, hfield, magnitude_negate]
  have hrounding : Rounding.ofBinary64 x.negate = Rounding.ofBinary64 x := by
    rw [Rounding.ofBinary64, Rounding.ofBinary64, hsignificand, scale, scale, hfield]
  rw [shortest, shortest, isZero, isZero, magnitude_negate, hrounding]

/-- The shortest decimal of zero has no power. -/
theorem shortest_proper (x : Binary64) (tie : Tie) : (x.shortest tie).Proper := by
  intro hdigits
  cases hzero : x.isZero with
  | true => rw [shortest, hzero, if_pos rfl]
  | false =>
    have hattracts : x.Attracts (x.shortest tie).value := shortest_attracts hzero
    have hpos := hattracts.pos (significand_pos hzero)
    rw [Decimal.value, hdigits, Nat.cast_zero, zero_mul] at hpos
    exact absurd hpos (not_le.2 (by positivity))

end Binary64

namespace Json

/-- A decimal with the value of the shortest one is a text of the number. -/
theorem toJson_of_value {m : Magnitude} {x : Binary64} {tie : Tie} (hreal : m.IsReal)
    (hfinite : x.isFinite = true) (hsign : x.isNegative = false)
    (hvalue : m.value = (x.shortest tie).value) : m.toJson = .real x := by
  rw [Magnitude.toJson, if_neg hreal, Binary64.ofScientific_of_shortest hfinite hsign hvalue]

/-- A finite number is written as a number that is read as itself. -/
theorem numberText_jsonChars {x : Binary64} (hfinite : x.isFinite = true) :
    NumberText (.real x) x.jsonChars := by
  have hmagnitude : ∃ m : Magnitude, m.text = (if -5 ≤ (x.shortest .even).leadingPlace ∧
      (x.shortest .even).leadingPlace ≤ 15 then (x.shortest .even).positional ['.', '0']
      else (x.shortest .even).exponential) ∧
      m.IsReal ∧ m.value = (x.shortest .even).value := by
    split
    · exact Decimal.exists_magnitude_positional (x.shortest_proper .even)
    · exact (x.shortest .even).exists_magnitude_exponential
  obtain ⟨m, htext, hreal, hvalue⟩ := hmagnitude
  -- the text behind a sign is that of the number without it
  rw [Binary64.jsonChars]
  simp only [← htext]
  cases hsign : x.isNegative with
  | false =>
    rw [Binary64.signed, hsign, if_neg Bool.false_ne_true,
      ← toJson_of_value hreal hfinite hsign hvalue]
    exact .unsigned m
  | true =>
    have hfinite' : x.negate.isFinite = true := by
      rwa [Binary64.isFinite, Binary64.magnitude_negate]
    have hjson : m.toJson = .real x.negate :=
      toJson_of_value hreal hfinite' (Binary64.isNegative_negate hsign)
        (hvalue.trans (by rw [Binary64.shortest_negate]))
    have hnegate : m.toJson.negate = .real x := by
      rw [hjson, negate, Binary64.negate_negate]
    rw [Binary64.signed, hsign, if_pos rfl, ← hnegate]
    exact .negative m

/-- The digits of a natural number are a text of it. -/
theorem numberText_toDigits (n : Nat) : NumberText (.integer n) (Nat.toDigits 10 n) := by
  have hleading : Nat.toDigits 10 n = ['0'] ∨
      (Nat.toDigits 10 n ≠ [] ∧ (Nat.toDigits 10 n).head? ≠ some '0') := by
    obtain rfl | hpos := Nat.eq_zero_or_pos n
    · exact .inl rfl
    · exact .inr ⟨Nat.toDigits_ne_nil, head?_toDigits_ne hpos⟩
  have h := NumberText.unsigned ⟨Nat.toDigits 10 n, [], none,
    fun _ => isDecimalDigit_of_mem_toDigits, hleading, by simp, by simp⟩
  simpa [Magnitude.toJson, Magnitude.text, numberOfDigits_toDigits] using h

end Json

end ScriptLint
