import ScriptLint.Proofs.Token.LongestNumeral
import ScriptLint.Token.Conversion

/-!
# Numerals are converted to what they denote

A proper numeral is converted to the number that it denotes, and the conversion does not fail
(`Numeral.Proper.convert_eq`). Digits are taken into a word one after the other, and the word
overflows at some digit just if the number of all digits is too large, because it only grows
(`wordOfDigits?_eq`). The text of a decimal is a decimal and nothing else, and a small mark in it
changes neither (`Binary64.ofDecimal?_text`, `Numeral.Proper.small`).
-/

namespace ScriptLint

/-! ## Digits in a marked base -/

section Words

variable {base : Nat} {digits : List Char}

/-- The number that more digits make of a number. -/
def extendNumber (base n : Nat) (digits : List Char) : Nat :=
  digits.foldl (fun n c => n * base + digitValue c) n

theorem le_extendNumber (hbase : 0 < base) (n : Nat) (digits : List Char) :
    n ≤ extendNumber base n digits := by
  induction digits generalizing n with
  | nil => exact Nat.le_refl n
  | cons c digits ih =>
    calc n ≤ n * base := Nat.le_mul_of_pos_right n hbase
      _ ≤ n * base + digitValue c := Nat.le_add_right _ _
      _ ≤ extendNumber base n (c :: digits) := ih _

/-- A word takes digits until one of them is too much for it, and then the number of all is. -/
theorem foldlM_pushDigit? (hbase : 0 < base) (hdigits : ∀ c ∈ digits, isDigitIn base c = true)
    (word : UInt64) :
    digits.foldlM (pushDigit? base) word =
      if extendNumber base word.toNat digits < Nat.pow 2 64
      then some (.ofNat (extendNumber base word.toNat digits)) else none := by
  induction digits generalizing word with
  | nil =>
    have hlt : extendNumber base word.toNat [] < Nat.pow 2 64 := word.toNat_lt
    rw [if_pos hlt]
    exact congrArg some UInt64.ofNat_toNat.symm
  | cons c digits ih =>
    obtain ⟨hc, hdigits⟩ := List.forall_mem_cons.1 hdigits
    have hnext : extendNumber base word.toNat (c :: digits) =
        extendNumber base (word.toNat * base + digitValue c) digits := rfl
    rw [List.foldlM_cons, hnext]
    by_cases hfits : word.toNat * base + digitValue c < Nat.pow 2 64
    · have hpush : pushDigit? base word c =
          some (.ofNat (word.toNat * base + digitValue c)) := if_pos ⟨hc, hfits⟩
      rw [hpush, Option.bind_eq_bind, Option.bind_some, ih hdigits,
        UInt64.toNat_ofNat_of_lt' hfits]
    · have hpush : pushDigit? base word c = none := if_neg fun h => hfits h.2
      have hle := le_extendNumber hbase (word.toNat * base + digitValue c) digits
      rw [hpush, if_neg fun hlt => hfits (Nat.lt_of_le_of_lt hle hlt)]
      rfl

/-- There is a word for digits if their number fits into 64 bits, however many they are. -/
theorem wordOfDigits?_eq (hne : digits ≠ []) (hdigits : ∀ c ∈ digits, isDigitIn base c = true) :
    wordOfDigits? base digits =
      if numberOfDigits base digits < Nat.pow 2 64
      then some (.ofNat (numberOfDigits base digits)) else none := by
  have hbase : 0 < base := by
    obtain ⟨c, _, rfl⟩ := List.exists_cons_of_ne_nil hne
    exact Nat.zero_lt_of_lt (of_decide_eq_true (hdigits c List.mem_cons_self))
  rw [wordOfDigits?, if_neg (by simpa using hne), foldlM_pushDigit? hbase hdigits]
  rfl

end Words

/-! ## Decimals -/

/-- The text of a decimal is converted. -/
theorem Binary64.ofDecimal?_text {whole : List Char} {fraction : Option (List Char)}
    {exponent : Option Exponent} (h : (Numeral.decimal whole fraction exponent).Proper) :
    ofDecimal? (Numeral.decimal whole fraction exponent).text =
      some (Numeral.decimal whole fraction exponent).value := by
  have hdigit : ¬ (whole.isEmpty ∧ fraction.isNone) := by
    rintro ⟨hwhole, hfraction⟩
    obtain hne | ⟨places, hplaces, -⟩ := h.2.2.1
    · exact hne (List.isEmpty_iff.1 hwhole)
    · rw [Option.isNone_iff_eq_none.1 hfraction] at hplaces
      cases hplaces
  rw [ofDecimal?, h.readDecimal_text]
  exact if_neg hdigit

namespace Numeral

theorem value_small (n : Numeral) : n.small.value = n.value := by
  cases n with
  | radix base mark digits => rfl
  | decimal whole fraction exponent => cases exponent <;> rfl

theorem Proper.small {n : Numeral} (h : n.Proper) : n.small.Proper := by
  cases n with
  | radix base mark digits => exact h
  | decimal whole fraction exponent =>
    obtain ⟨hwhole, hfraction, hsome, hexponent⟩ := h
    refine ⟨hwhole, hfraction, hsome, fun e he => ?_⟩
    obtain ⟨e, hmem, rfl⟩ := Option.map_eq_some_iff.1 he
    have hvalid := hexponent e hmem
    exact ⟨.inl rfl, hvalid.sign, hvalid.nonempty, hvalid.decimal⟩

/-- A proper numeral is converted to the number that it denotes. -/
theorem Proper.convert_eq {n : Numeral} (h : n.Proper) : n.convert = n.value := by
  cases n with
  | radix base mark digits =>
    obtain ⟨-, hne, hdigits⟩ := h
    rw [convert, value, wordOfDigits?_eq hne hdigits]
    split
    · next hfits => rw [Option.map_some, Option.getD_some, UInt64.toNat_ofNat_of_lt' hfits]
    · rfl
  | decimal whole fraction exponent =>
    rw [convert, Numeral.small, Binary64.ofDecimal?_text h.small]
    exact value_small (decimal whole fraction exponent)

end Numeral

end ScriptLint
