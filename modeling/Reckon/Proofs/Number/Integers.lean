import Mathlib.Data.Nat.Digits.Defs
import Reckon.Proofs.Number.Reading

/-!
Integers as they are written. The text of an integer is a sign or none and its decimal digits, and
reading it gives the integer again.
-/

namespace Reckon.Number

theorem digit_of_decimal {char : Char} (digit : char.isDigit = true) :
    Scan.isDigit char = true := by
  simp only [Char.isDigit, Bool.and_eq_true, decide_eq_true_eq] at digit
  simp only [Scan.isDigit, Bool.and_eq_true, decide_eq_true_eq]
  exact digit

theorem decimal_digits (number : Nat) : Scan.IsDigits (Nat.toDigits 10 number) :=
  ⟨Nat.toDigits_ne_nil, fun _ member =>
    digit_of_decimal (Nat.isDigit_of_mem_toDigits (by decide) (by decide) member)⟩

theorem integer_text (number : Int) : ∃ sign, (toString number).toList =
    sign ++ Nat.toDigits 10 number.natAbs ∧ Scan.IsSign sign ∧
      number = applySign (decide (sign = ['-'])) number.natAbs := by
  rw [Int.toString_eq_repr, Int.repr_eq_if]
  by_cases positive : 0 ≤ number
  · have magnitude : number.toNat = number.natAbs := by omega
    refine ⟨[], ?_, .inl rfl, (Int.natAbs_of_nonneg positive).symm⟩
    rw [if_pos positive, Nat.toList_repr, magnitude]
    rfl
  · have magnitude : (-number).toNat = number.natAbs := by omega
    refine ⟨['-'], ?_, .inr (.inr rfl), ?_⟩
    · rw [if_neg positive, String.toList_append, Nat.toList_repr, magnitude]
      rfl
    · rw [decide_eq_true rfl, applySign, if_pos rfl]
      omega

/-- The text of an integer has one character more than its digits. -/
theorem integer_text_length {number : Int} {digits : Nat} (some : 0 < digits)
    (below : number.natAbs < 10 ^ digits) : (toString number).toList.length ≤ digits + 1 := by
  obtain ⟨sign, chars, signed, _⟩ := integer_text number
  have short : sign.length ≤ 1 := by
    rcases signed with rfl | rfl | rfl <;> simp
  have written := Nat.toDigits_length 10 number.natAbs digits some below
  rw [chars, List.length_append]
  omega

theorem signed_of_integer (number : Int) : Shape.IsSigned Scan.IsDigits (toString number) := by
  obtain ⟨sign, chars, signed, _⟩ := integer_text number
  exact ⟨sign, _, chars, signed, decimal_digits _⟩

theorem exact_of_integer (number : Int) : exactInteger? (toString number).toList = some number := by
  obtain ⟨sign, chars, signed, same⟩ := integer_text number
  rw [chars, exact_of_sign_and_digits signed (decimal_digits number.natAbs),
    Nat.ofDigitChars_ten_toDigits, ← same]

/-- An integer is read back from its text. -/
theorem read_int_text (number : Int64) : readInt? (toString number.toInt) = some number := by
  rw [read_int_eq, exact_of_integer, Option.bind_some, toInt64?, if_pos]
  · rw [Int64.ofInt_toInt]
  · exact ⟨number.minValue_le_toInt, number.toInt_le⟩

end Reckon.Number
