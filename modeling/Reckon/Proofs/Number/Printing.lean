import Reckon.Number.Layout
import Reckon.Proofs.Number.Exact
import Reckon.Proofs.Number.Integers

/-!
The texts of finite numbers. A number that is written out has a point: a whole one is given a zero
behind it, and the shortest decimal of any other has digits behind its point, since no whole number
rounds to it. With an exponent a single digit has no point and several digits have one.
-/

namespace Reckon.Number

namespace RoundingInterval

/-- What reads back as a number is at most half a unit away from it. -/
theorem near_of_contains {significand digits : Nat} {exponent : Int} {ratio : Ratio}
    (contained : (RoundingInterval.of significand exponent).contains ratio digits = true) :
    4 * significand * ratio.denominator ≤ digits * ratio.numerator + 2 * ratio.denominator ∧
      digits * ratio.numerator ≤ (4 * significand + 2) * ratio.denominator := by
  have low : 4 * significand ≤ (RoundingInterval.of significand exponent).low + 2 := by
    unfold RoundingInterval.of
    dsimp only
    split <;> omega
  have scaled := Nat.mul_le_mul_right ratio.denominator low
  rw [Nat.add_mul] at scaled
  have within : (RoundingInterval.of significand exponent).low * ratio.denominator ≤
        digits * ratio.numerator ∧
      digits * ratio.numerator ≤
        (RoundingInterval.of significand exponent).high * ratio.denominator := by
    rw [contains] at contained
    split at contained <;>
      simp only [Bool.and_eq_true, decide_eq_true_eq] at contained <;> omega
  exact ⟨Nat.le_trans scaled (Nat.add_le_add_right within.1 _), within.2⟩

/-- No whole number reads back as a number that is not whole. -/
theorem contains_no_whole {significand : Nat} {exponent ten : Int}
    (fraction : isWhole significand exponent = false) (whole : 0 ≤ ten) (digits : Nat) :
    (RoundingInterval.of significand exponent).contains (.ofPowers ten (exponent - 2)) digits =
      false := by
  cases exponent with
  | ofNat exponent => cases fraction
  | negSucc below =>
      have undivided : significand % 2 ^ (below + 1) ≠ 0 := by
        rwa [isWhole, beq_eq_false_iff_ne, Nat.one_shiftLeft] at fraction
      have numerator : (Ratio.ofPowers ten (Int.negSucc below - 2)).numerator =
          10 ^ ten.toNat * (2 ^ (below + 1) * 4) := by
        have places : (-(Int.negSucc below - 2)).toNat = below + 1 + 2 := by omega
        rw [Ratio.ofPowers, places, Nat.shiftLeft_eq, Nat.pow_add]
        rfl
      have denominator : (Ratio.ofPowers ten (Int.negSucc below - 2)).denominator = 1 := by
        have nothing : (-ten).toNat = 0 := by omega
        have places : (Int.negSucc below - 2).toNat = 0 := by omega
        rw [Ratio.ofPowers, nothing, places]
        rfl
      by_contra contained
      rw [Bool.not_eq_false] at contained
      have near := near_of_contains contained
      rw [numerator, denominator, ← Nat.mul_assoc, ← Nat.mul_assoc] at near
      -- both are multiples of four units of the interval, so that half of that apart is the same
      have multiple : significand = digits * 10 ^ ten.toNat * 2 ^ (below + 1) := by omega
      exact undivided (by rw [multiple, Nat.mul_mod_left])

/-- Without a point in the interval there is no nearest one. -/
theorem nearest_eq_none {interval : RoundingInterval} {ratio : Ratio}
    (none : ∀ digits, interval.contains ratio digits = false) :
    interval.nearest? ratio = Option.none := by
  rw [nearest?, none, none]
  rfl

/-- Where grids of whole numbers have no point in the interval, a finer one is taken. -/
theorem coarsest_exponent_negative {interval : RoundingInterval} {unit : Int}
    (none : ∀ ten digits, 0 ≤ ten → interval.contains (.ofPowers ten unit) digits = false)
    {finer : Nat} {ten : Int} (fine : ten < finer) :
    (interval.coarsest unit finer ten).exponent < 0 := by
  induction finer generalizing ten with
  | zero => exact fine
  | succ finer induction =>
      rw [coarsest]
      by_cases whole : 0 ≤ ten
      · rw [nearest_eq_none fun digits => none ten digits whole]
        exact induction (by omega)
      · split
        · exact Int.not_le.mp whole
        · exact induction (by omega)

end RoundingInterval

/-- A number that is written out and not whole has fewer than 54 bits before its point. -/
theorem magnitude_of_written {significand below : Nat}
    (written : isWrittenOut significand (Int.negSucc below) = true) :
    significand < 2 ^ (54 + (below + 1)) := by
  have places : (-Int.negSucc below).toNat = below + 1 := rfl
  have nothing : (Int.negSucc below).toNat = 0 := rfl
  simp only [isWrittenOut, places, nothing, Nat.shiftLeft_zero, Nat.one_shiftLeft,
    Bool.and_eq_true, decide_eq_true_eq] at written
  calc significand < 10000000000000000 * 2 ^ (below + 1) := written.2
    _ ≤ 2 ^ 54 * 2 ^ (below + 1) := Nat.mul_le_mul_right _ (by decide)
    _ = 2 ^ (54 + (below + 1)) := (Nat.pow_add ..).symm

/-- The shortest decimal of a number that is not whole and not too large has digits behind its
point. -/
theorem shortest_exponent_negative {significand : Nat} {exponent : Int}
    (fraction : isWhole significand exponent = false)
    (written : isWrittenOut significand exponent = true) :
    (shortest significand exponent).exponent < 0 := by
  apply RoundingInterval.coarsest_exponent_negative
  · intro ten digits whole
    exact RoundingInterval.contains_no_whole fraction whole digits
  · cases exponent with
    | ofNat exponent => cases fraction
    | negSucc below =>
        have positive : significand ≠ 0 := by
          rintro rfl
          cases fraction
        have bits := (Nat.log2_lt positive).mpr (magnitude_of_written written)
        omega

/-- Digits behind a point make the text of a decimal that of a real number. -/
theorem written_out_real {decimal : Decimal} (negative : decimal.exponent < 0) :
    Scan.IsReal (writtenOut decimal) := by
  obtain ⟨digits, exponent⟩ := decimal
  have written : Scan.IsDigits (decimalDigits digits) := decimal_digits digits
  cases exponent with
  | ofNat zeros => cases Int.not_le.mpr negative (Int.natCast_nonneg zeros)
  | negSucc below =>
      rw [writtenOut]
      dsimp only
      split
      · next inside =>
          refine .point ⟨?_, fun char member => written.2 char (List.mem_of_mem_take member)⟩
            fun char member => written.2 char (List.mem_of_mem_drop member)
          rw [ne_eq, List.take_eq_nil_iff]
          rintro (none | none)
          · omega
          · exact written.1 none
      · have zero : Scan.IsDigits ['0'] := ⟨List.cons_ne_nil _ _, List.all_eq_true.mp rfl⟩
        refine .point zero ?_
        intro char member
        rcases List.mem_append.mp member with member | member
        · rw [List.eq_of_mem_replicate member]
          rfl
        · exact written.2 char member

/-- What is written out is at least 1e-5 and less than 1e16. -/
theorem written_out_iff (significand : Nat) (exponent : Int) :
    isWrittenOut significand exponent = true ↔
      1 / 10 ^ 5 ≤ (significand : ℚ) * 2 ^ exponent ∧
        (significand : ℚ) * 2 ^ exponent < 10 ^ 16 := by
  have shape : isWrittenOut significand exponent = true ↔
      2 ^ (-exponent).toNat ≤ significand * 2 ^ exponent.toNat * 100000 ∧
        significand * 2 ^ exponent.toNat < 10000000000000000 * 2 ^ (-exponent).toNat := by
    simp only [isWrittenOut, Nat.shiftLeft_eq, Nat.one_mul, Bool.and_eq_true, decide_eq_true_eq]
  have unit : (0 : ℚ) < 2 ^ (-exponent).toNat := by positivity
  have value : (significand : ℚ) * 2 ^ exponent =
      significand * 2 ^ exponent.toNat / 2 ^ (-exponent).toNat := by
    cases exponent with
    | ofNat exponent => simp
    | negSucc below => simp [zpow_negSucc, div_eq_mul_inv]
  rw [shape, value, div_le_div_iff₀ (by positivity) unit, div_lt_iff₀ unit, one_mul]
  norm_cast

/-- A first digit, a point and the other digits, and then an exponent. -/
def pointAndExponent (first : Char) (fraction : List Char) (power : Int) : List Char :=
  first :: '.' :: (fraction ++ 'e' :: (toString power).toList)

/-- With an exponent a single digit makes the text of a real number, and more have a point. -/
theorem with_exponent_cases (decimal : Decimal) : Scan.IsReal (withExponent decimal) ∨
    ∃ first fraction power, Scan.isDigit first = true ∧ Scan.IsDigits fraction ∧
      withExponent decimal = pointAndExponent first fraction power := by
  have written : Scan.IsDigits (decimalDigits decimal.digits) := decimal_digits decimal.digits
  obtain ⟨first, fraction, same, digit⟩ := Scan.first_of_digits written
  rw [withExponent, same]
  rw [same] at written
  cases fraction with
  | nil =>
      left
      obtain ⟨sign, chars, signed, _⟩ :=
        integer_text (decimal.exponent + ([first].length - 1 : Nat))
      change Scan.IsReal
        ([first] ++ 'e' :: (toString (decimal.exponent + ([first].length - 1 : Nat))).toList)
      rw [chars]
      exact .exponent written (.inl rfl) signed (decimal_digits _)
  | cons second others =>
      right
      refine ⟨first, second :: others, _, digit, ⟨List.cons_ne_nil _ _, ?_⟩, rfl⟩
      exact fun char member => written.2 char (List.mem_cons_of_mem first member)

/-- Only a number that is not written out can have both a point and an exponent. -/
theorem magnitude_text_cases (significand : Nat) (exponent : Int) :
    Scan.IsReal (magnitudeText significand exponent) ∨
    (significand ≠ 0 ∧ isWrittenOut significand exponent = false ∧
      ∃ first fraction power, Scan.isDigit first = true ∧ Scan.IsDigits fraction ∧
        magnitudeText significand exponent = pointAndExponent first fraction power) := by
  have zero : Scan.IsDigits ['0'] := ⟨List.cons_ne_nil _ _, List.all_eq_true.mp rfl⟩
  unfold magnitudeText
  split_ifs with nothing written whole
  · exact .inl (.point zero zero.2)
  · rw [Bool.not_eq_true'] at written
    exact (with_exponent_cases _).imp id fun marked => ⟨nothing, written, marked⟩
  · exact .inl (.point (decimal_digits _) zero.2)
  · rw [Bool.not_eq_true', Bool.not_eq_false] at written
    exact .inl (written_out_real (shortest_exponent_negative (by simpa using whole) written))

example : text (-0.5) = "-0.5" := by decide

example : text 1e16 = "1e16" := by decide

example : text 2.5e-9 = "2.5e-9" := by decide

end Reckon.Number
