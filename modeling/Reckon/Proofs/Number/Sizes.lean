import Reckon.Number.Layout
import Reckon.Proofs.Number.Exact
import Reckon.Proofs.Number.Integers
import Reckon.Proofs.Token.Places

/-!
How long the text of a number can be. The exponents of the format bound the shortest decimal, its
digits and its power of ten, and with them the text in every layout. The bounds are far from sharp,
and far below what spans reach over.
-/

namespace Reckon.Number

open Binary

/-- A product has at most as many digits as its factors have together. -/
theorem product_length {left right number first second : Nat} (small : left ≤ 10 ^ first)
    (others : right ≤ 10 ^ second) (most : number ≤ left * right + 1) :
    (decimalDigits number).length ≤ first + second + 1 := by
  have product := Nat.mul_le_mul small others
  have positive : 0 < 10 ^ (first + second) := Nat.pow_pos (by decide)
  rw [← Nat.pow_add] at product
  refine Nat.toDigits_length 10 number _ (Nat.succ_pos _) ?_
  rw [Nat.pow_succ]
  omega

theorem two_pow_le {power most : Nat} (within : power ≤ most) : 2 ^ power ≤ 10 ^ most :=
  Nat.le_trans (Nat.pow_le_pow_left (by decide) power) (Nat.pow_le_pow_right (by decide) within)

theorem denominator_eq (ten two : Int) :
    (Ratio.ofPowers ten two).denominator = 10 ^ (-ten).toNat * 2 ^ two.toNat :=
  Nat.shiftLeft_eq _ _

theorem denominator_le {ten two : Int} {tens twos : Nat} (first : (-ten).toNat ≤ tens)
    (second : two.toNat ≤ twos) : (Ratio.ofPowers ten two).denominator ≤ 10 ^ (tens + twos) := by
  rw [denominator_eq, Nat.pow_add]
  exact Nat.mul_le_mul (Nat.pow_le_pow_right (by decide) first) (two_pow_le second)

namespace RoundingInterval

theorem nearest_le {interval : RoundingInterval} {ratio : Ratio} {digits : Nat}
    (nearest : interval.nearest? ratio = some digits) :
    digits ≤ interval.value * ratio.denominator + 1 := by
  have quotient := Nat.div_le_self (interval.value * ratio.denominator) ratio.numerator
  simp only [nearest?] at nearest
  split at nearest
  · cases nearest
    omega
  · split at nearest
    · cases nearest
      omega
    · cases nearest

/-- The power of ten is one of those that were tried, and its multiple not far from the value. -/
theorem coarsest_bounds (interval : RoundingInterval) (unit : Int) (finer : Nat) (ten : Int) :
    ten - finer ≤ (interval.coarsest unit finer ten).exponent ∧
      (interval.coarsest unit finer ten).exponent ≤ ten ∧
      (interval.coarsest unit finer ten).digits ≤ interval.value *
        (Ratio.ofPowers (interval.coarsest unit finer ten).exponent unit).denominator + 1 := by
  induction finer generalizing ten with
  | zero =>
      have positive : 0 < (Ratio.ofPowers ten unit).denominator := by
        rw [denominator_eq]
        exact Nat.mul_pos (Nat.pow_pos (Nat.succ_pos 9)) (Nat.two_pow_pos _)
      exact ⟨Int.le_of_eq (Int.sub_zero ten), Int.le_refl ten,
        Nat.le_succ_of_le (Nat.le_mul_of_pos_right _ positive)⟩
  | succ finer induction =>
      rw [coarsest]
      cases nearest : interval.nearest? (.ofPowers ten unit) with
      | some digits => exact ⟨by dsimp only; omega, Int.le_refl ten, nearest_le nearest⟩
      | none =>
          obtain ⟨least, greatest, digits⟩ := induction (ten - 1)
          exact ⟨by dsimp only; omega, by dsimp only; omega, digits⟩

end RoundingInterval

section

variable {significand : Nat} {exponent : Int} (format : InFormat significand exponent)

include format

theorem significand_le : 4 * significand ≤ 10 ^ 17 := by
  have small := format.small
  have leading : leadingBit = 4503599627370496 := rfl
  omega

theorem shortest_bounds : (shortest significand exponent).exponent.natAbs ≤ 400 ∧
    (decimalDigits (shortest significand exponent).digits).length ≤ 1500 := by
  have least := format.least
  have greatest := format.greatest
  have bits : significand.log2 ≤ 52 := by
    rcases Nat.eq_zero_or_pos significand with rfl | positive
    · decide
    · exact Nat.le_of_lt_succ ((Nat.log2_lt positive.ne').mpr format.small)
  rw [minExponent] at least
  obtain ⟨above, below, digits⟩ := (RoundingInterval.of significand exponent).coarsest_bounds
    (exponent - 2) 24 ((significand.log2 + 1 + exponent) * 30103 / 100000 + 1)
  rw [← shortest] at above below digits
  have power : (shortest significand exponent).exponent.natAbs ≤ 400 := by omega
  have denominator := @denominator_le (shortest significand exponent).exponent (exponent - 2) 400
    971 (by omega) (by omega)
  exact ⟨power, Nat.le_trans (product_length (significand_le format) denominator digits)
    (by decide)⟩

theorem whole_part_length : (decimalDigits (wholePart significand exponent)).length ≤ 1500 := by
  have greatest := format.greatest
  have small : significand ≤ 10 ^ 17 := Nat.le_trans (by omega) (significand_le format)
  have most : wholePart significand exponent ≤ significand * 2 ^ exponent.toNat := by
    cases exponent with
    | ofNat power =>
        rw [wholePart, Nat.shiftLeft_eq]
        exact Nat.le_refl _
    | negSucc below =>
        rw [wholePart, Nat.shiftRight_eq_div_pow]
        exact Nat.le_trans (Nat.div_le_self _ _) (Nat.le_mul_of_pos_right _ (Nat.two_pow_pos _))
  have power : exponent.toNat ≤ 971 := by omega
  exact Nat.le_trans (product_length small (two_pow_le power) (Nat.le_succ_of_le most)) (by decide)

end

section

variable {decimal : Decimal} (power : decimal.exponent.natAbs ≤ 400)
  (digits : (decimalDigits decimal.digits).length ≤ 1500)

include power digits

theorem written_out_length : (writtenOut decimal).length ≤ 2000 := by
  obtain ⟨number, exponent⟩ := decimal
  dsimp only at digits
  cases exponent with
  | ofNat zeros =>
      have few : zeros ≤ 400 := power
      simp only [writtenOut, List.length_append, List.length_replicate]
      omega
  | negSucc below =>
      have few : below + 1 ≤ 400 := power
      rw [writtenOut]
      dsimp only
      split <;> simp only [List.length_append, List.length_cons, List.length_take,
        List.length_drop, List.length_replicate] <;> omega

theorem with_exponent_length : (withExponent decimal).length ≤ 2000 := by
  have exponent := @integer_text_length
    (decimal.exponent + ((decimalDigits decimal.digits).length - 1 : Nat)) 4 (by decide) (by omega)
  rw [withExponent]
  split <;> simp only [List.length_append, List.length_cons, List.length_take, List.length_drop,
    List.length_nil] <;> omega

end

/-- In every layout the text of a number is short. -/
theorem magnitude_text_length {significand : Nat} {exponent : Int}
    (format : InFormat significand exponent) :
    (magnitudeText significand exponent).length ≤ 2000 := by
  obtain ⟨power, digits⟩ := shortest_bounds format
  unfold magnitudeText
  split_ifs
  · decide
  · exact with_exponent_length power digits
  · rw [List.length_append]
    exact Nat.le_trans (Nat.add_le_add_right (whole_part_length format) _) (by decide)
  · exact written_out_length power digits

/-- Spans reach over the text of a finite number. -/
theorem text_fits (negative : Bool) {significand : Nat} {exponent : Int}
    (format : InFormat significand exponent) :
    Text.byteSize (signText negative ++ magnitudeText significand exponent) ≤ Span.maxOffset := by
  have sign : (signText negative).length ≤ 1 := by cases negative <;> decide
  have magnitude := magnitude_text_length format
  have size := Text.byte_size_le (signText negative ++ magnitudeText significand exponent)
  have limit : Span.maxOffset = 4294967295 := rfl
  rw [List.length_append] at size
  omega

end Reckon.Number
