import Mathlib.Algebra.Order.Field.Power
import Mathlib.Data.Rat.Floor
import Reckon.Proofs.Number.Reading
import Reckon.Value.Checked

/-!
Integer arithmetic beside exact arithmetic. What an operation on two integers comes to exactly is an
integer of any size, or a fraction that is cut off behind its point, or nothing where zero would be
a divisor. The operation on 64-bit integers gives just that integer, or says that it is not one of
them. The ways in which a power is computed all lead there, whatever the exponent is.
-/

namespace Reckon

/-- A fraction cut off behind its point: the next integer on the way to zero. -/
def truncated (fraction : ℚ) : ℤ := if 0 ≤ fraction then ⌊fraction⌋ else ⌈fraction⌉

/-- What an operation on integers comes to exactly, whatever the size of that. A quotient and a
power with a negative exponent are fractions, which are cut off. Nothing is divided by zero. -/
def Operator.exactResult? (operator : Operator) (left right : ℤ) : Option ℤ :=
  match operator with
  | .add => some (left + right)
  | .sub => some (left - right)
  | .mul => some (left * right)
  | .div => if right = 0 then none else some (truncated (left / right))
  | .pow =>
      if 0 ≤ right then some (left ^ right.toNat)
      else if left = 0 then none
      else some (truncated ((left : ℚ) ^ right))

theorem truncated_integer (number : ℤ) : truncated number = number := by
  rw [truncated, Int.floor_intCast, Int.ceil_intCast, ite_self]

theorem truncated_neg (fraction : ℚ) : truncated (-fraction) = -truncated fraction := by
  rcases lt_trichotomy fraction 0 with negative | rfl | positive
  · rw [truncated, truncated, if_pos (by linarith), if_neg (by linarith), Int.floor_neg]
  · rw [neg_zero, ← Int.cast_zero, truncated_integer, neg_zero]
  · rw [truncated, truncated, if_neg (by linarith), if_pos (by linarith), Int.ceil_neg]

/-- Between minus one and one there is nothing before the point. -/
theorem truncated_of_small {fraction : ℚ} (small : |fraction| < 1) : truncated fraction = 0 := by
  obtain ⟨above, below⟩ := abs_lt.mp small
  rw [truncated]
  split
  · next positive => exact Int.floor_eq_zero_iff.mpr ⟨positive, below⟩
  · next negative =>
      rw [Int.ceil_eq_iff, Int.cast_zero, zero_sub]
      exact ⟨above, le_of_not_ge negative⟩

theorem truncated_quotient (left right : ℤ) :
    truncated ((left : ℚ) / right) = left.tdiv right := by
  have unsigned : ∀ first second : ℕ,
      truncated ((first : ℚ) / second) = (first : ℤ).tdiv second := by
    intro first second
    rw [truncated, if_pos (by positivity), Rat.floor_natCast_div_natCast]
    rfl
  obtain ⟨first, rfl | rfl⟩ := left.eq_nat_or_neg <;>
    obtain ⟨second, rfl | rfl⟩ := right.eq_nat_or_neg <;>
    simp only [Int.cast_neg, Int.cast_natCast, neg_div, div_neg, truncated_neg, unsigned,
      Int.neg_tdiv, Int.tdiv_neg]

/-- Every base but zero, one and minus one makes a small fraction with a negative exponent. -/
theorem truncated_power {base exponent : ℤ} (large : 1 < |base|) (negative : exponent < 0) :
    truncated ((base : ℚ) ^ exponent) = 0 := by
  apply truncated_of_small
  rw [abs_zpow]
  apply zpow_lt_one_of_neg₀ _ negative
  exact_mod_cast large

theorem one_lt_abs {number : ℤ} (zero : number ≠ 0) (one : number ≠ 1) (minusOne : number ≠ -1) :
    1 < |number| := by
  rw [Int.abs_eq_natAbs]
  omega

namespace Value

/-- An exact result is one of the 64-bit integers and is given, or is none of them and refused. -/
theorem of_exact_cases (operator : Operator) (result : ℤ) :
    (∃ number : Int64, number.toInt = result ∧ ofExact operator result = .ok (.int number)) ∨
    ((∀ number : Int64, number.toInt ≠ result) ∧
      ofExact operator result = .error (.integerOverflow operator)) := by
  by_cases fits : Int64.minValue.toInt ≤ result ∧ result ≤ Int64.maxValue.toInt
  · have held : (Int64.ofInt result).toInt = result := Int64.toInt_ofInt_of_le fits.1 (by
      have bound := fits.2
      rw [Int64.toInt_maxValue] at bound
      omega)
    exact .inl ⟨.ofInt result, held, by rw [ofExact, Number.toInt64?, if_pos fits]⟩
  · refine .inr ⟨?_, by rw [ofExact, Number.toInt64?, if_neg fits]⟩
    rintro number rfl
    exact fits ⟨number.minValue_le_toInt, number.toInt_le⟩

theorem of_exact_beyond (operator : Operator) {result : ℤ} (beyond : Number.IsBeyond result) :
    ofExact operator result = .error (.integerOverflow operator) := by
  rw [ofExact, Number.to_int64_eq_none beyond]

theorem product_eq (left right : ℤ) :
    product? left right = some (left * right) ∨
      product? left right = none ∧ Number.IsBeyond (left * right) := by
  rw [product?, Number.toInt64?]
  by_cases fits : Int64.minValue.toInt ≤ left * right ∧ left * right ≤ Int64.maxValue.toInt
  · have below : left * right < 2 ^ 63 := by
      have greatest := Int64.toInt_maxValue
      omega
    rw [if_pos fits, Option.map_some, Int64.toInt_ofInt_of_le fits.1 below]
    exact .inl rfl
  · rw [if_neg fits]
    refine .inr ⟨rfl, ?_⟩
    rw [Number.IsBeyond]
    omega

theorem square_split (base : ℤ) (exponent : ℕ) :
    base ^ exponent = (base * base) ^ (exponent / 2) * base ^ (exponent % 2) := by
  rw [← pow_two, ← pow_mul, ← pow_add, Nat.div_add_mod]

/-- A number is beyond 64 bits if its magnitude is, and it is not the least integer. -/
theorem beyond_of_magnitude {number : ℤ} (large : 2 ^ 63 < number.natAbs) :
    Number.IsBeyond number := by
  rw [Number.IsBeyond, Int64.toInt_minValue, Int64.toInt_maxValue]
  omega

theorem power_beyond {base : ℤ} (large : 1 < base.natAbs) {exponent : ℕ} (high : 64 ≤ exponent) :
    Number.IsBeyond (base ^ exponent) := by
  apply beyond_of_magnitude
  rw [Int.natAbs_pow]
  calc 2 ^ 63 < 2 ^ 64 := by decide
    _ ≤ base.natAbs ^ 64 := Nat.pow_le_pow_left large 64
    _ ≤ base.natAbs ^ exponent := Nat.pow_le_pow_right (by omega) high

/-- Where an even power is beyond 64 bits, so is every higher power. -/
theorem higher_beyond {base : ℤ} {half exponent : ℕ}
    (beyond : Number.IsBeyond ((base * base) ^ half)) (higher : 2 * half ≤ exponent) :
    Number.IsBeyond (base ^ exponent) := by
  have even : (base * base) ^ half = base ^ (2 * half) := by rw [← pow_two, ← pow_mul]
  rw [even] at beyond
  have large : 2 ^ 63 ≤ (base ^ (2 * half)).natAbs := by
    rw [Number.IsBeyond, Int64.toInt_minValue, Int64.toInt_maxValue] at beyond
    omega
  rcases Nat.eq_or_lt_of_le higher with rfl | above
  · exact beyond
  · rw [Int.natAbs_pow] at large
    have more : 1 < base.natAbs := by
      by_contra atMostOne
      have small := Nat.pow_le_pow_left (Nat.not_lt.mp atMostOne) (2 * half)
      rw [one_pow] at small
      omega
    apply beyond_of_magnitude
    rw [Int.natAbs_pow]
    calc 2 ^ 63 ≤ base.natAbs ^ (2 * half) := large
      _ < base.natAbs ^ exponent := Nat.pow_lt_pow_right more above

/-- Squaring comes to the exact power, or the power is beyond 64 bits. -/
theorem power_eq {bits : ℕ} (base : ℤ) {exponent : ℕ} (small : exponent < 2 ^ bits) :
    power? base bits exponent = some (base ^ exponent) ∨
      power? base bits exponent = none ∧ Number.IsBeyond (base ^ exponent) := by
  induction bits generalizing base exponent with
  | zero =>
      obtain rfl : exponent = 0 := by omega
      rw [power?, pow_zero]
      exact .inl rfl
  | succ bits induction =>
      rw [power?]
      by_cases zero : exponent = 0
      · rw [if_pos zero, zero, pow_zero]
        exact .inl rfl
      by_cases one : exponent = 1
      · rw [if_neg zero, if_pos one, one, pow_one]
        exact .inl rfl
      rw [if_neg zero, if_neg one]
      have half : exponent / 2 < 2 ^ bits := by omega
      rcases product_eq base base with squared | ⟨squared, beyond⟩
      · rcases induction (base * base) half with power | ⟨power, beyond⟩
        · rw [squared, Option.bind_eq_bind, Option.bind_some, power, Option.bind_some,
            square_split base exponent]
          rcases Nat.mod_two_eq_zero_or_one exponent with even | odd
          · rw [if_pos even, even, pow_zero, mul_one]
            exact .inl rfl
          · rw [if_neg (by omega), odd, pow_one]
            exact product_eq _ base
        · rw [squared, Option.bind_eq_bind, Option.bind_some, power]
          exact .inr ⟨rfl, higher_beyond beyond (Nat.mul_div_le exponent 2)⟩
      · rw [squared]
        rw [← pow_one (base * base)] at beyond
        exact .inr ⟨rfl, higher_beyond beyond (by omega)⟩

/-- The powers of minus one take turns, on either side of zero. -/
theorem alternating_eq (exponent : ℤ) : ((-1 : ℚ) ^ exponent) = (alternating exponent : ℤ) := by
  rw [alternating]
  split
  · next even =>
      rw [(Int.even_iff.mpr even).neg_one_zpow, Int.cast_one]
  · next odd =>
      rw [(Int.not_even_iff_odd.mp (odd ∘ Int.even_iff.mp)).neg_one_zpow]
      rfl

/-- The answer to an operation with an exact result or with none. -/
def answer (operator : Operator) : Option ℤ → Except ArithmeticError Value
  | none => .error .divisionByZero
  | some result => ofExact operator result

theorem int_power_eq (base exponent : ℤ) :
    intPower base exponent = answer .pow (Operator.pow.exactResult? base exponent) := by
  rw [intPower, Operator.exactResult?]
  by_cases negative : exponent < 0
  · rw [if_pos negative, if_neg (not_le.mpr negative)]
    by_cases zero : base = 0
    · rw [if_pos zero, if_pos zero, answer]
    rw [if_neg zero, if_neg zero, answer]
    by_cases one : base = 1
    · subst one
      have still : ((1 : ℤ) : ℚ) ^ exponent = (1 : ℤ) := by rw [Int.cast_one, one_zpow]
      rw [if_pos rfl, still, truncated_integer]
    rw [if_neg one]
    by_cases minusOne : base = -1
    · subst minusOne
      rw [if_pos rfl, Int.cast_neg, Int.cast_one, alternating_eq, truncated_integer]
    · rw [if_neg minusOne, truncated_power (one_lt_abs zero one minusOne) negative]
  · obtain ⟨power, rfl⟩ := Int.eq_ofNat_of_zero_le (not_lt.mp negative)
    rw [if_neg negative, if_pos (not_lt.mp negative), Int.toNat_natCast, answer]
    by_cases small : power < UInt32.size
    · rw [if_pos (Int.ofNat_lt.mpr small)]
      rcases @power_eq 32 base power small with computed | ⟨refused, beyond⟩
      · rw [computed]
      · rw [refused, of_exact_beyond .pow beyond]
    rw [if_neg (mt Int.ofNat_lt.mp small)]
    have size : UInt32.size = 4294967296 := rfl
    by_cases still : base = 0 ∨ base = 1
    · rw [if_pos still]
      rcases still with rfl | rfl
      · rw [zero_pow (by omega)]
      · rw [one_pow]
    rw [if_neg still]
    by_cases minusOne : base = -1
    · have turns : (-1 : ℤ) ^ power = alternating power := by
        have fractions := alternating_eq power
        rw [zpow_natCast] at fractions
        exact_mod_cast fractions
      rw [if_pos minusOne, minusOne, turns]
    · rw [if_neg minusOne, of_exact_beyond .pow (power_beyond (by omega) (by omega))]

theorem int_binary_eq (operator : Operator) (left right : ℤ) :
    intBinary operator left right = answer operator (operator.exactResult? left right) := by
  cases operator with
  | add => rfl
  | sub => rfl
  | mul => rfl
  | div =>
      rw [intBinary, Operator.exactResult?, truncated_quotient]
      split <;> rfl
  | pow => exact int_power_eq left right

/-- An operation on two integers gives the exact result if that is one of the 64-bit integers. If it
is none of them, the operation says so and names itself; it neither wraps around nor stops at the
greatest integer. Where there is no exact result, zero would be a divisor, and that is said. -/
theorem integers_compute_exactly (operator : Operator) (left right : Int64) :
    (∃ number : Int64, operator.exactResult? left.toInt right.toInt = some number.toInt ∧
      compute operator (.int left) (.int right) = .ok (.int number)) ∨
    (∃ result, operator.exactResult? left.toInt right.toInt = some result ∧
      (∀ number : Int64, number.toInt ≠ result) ∧
      compute operator (.int left) (.int right) = .error (.of (.integerOverflow operator))) ∨
    (operator.exactResult? left.toInt right.toInt = none ∧
      compute operator (.int left) (.int right) = .error (.of .divisionByZero)) := by
  rw [compute, binary, int_binary_eq]
  cases operator.exactResult? left.toInt right.toInt with
  | none => exact .inr (.inr ⟨rfl, rfl⟩)
  | some result =>
      rw [answer]
      rcases of_exact_cases operator result with ⟨number, rfl, given⟩ | ⟨none, refused⟩
      · exact .inl ⟨number, rfl, by rw [given]; rfl⟩
      · exact .inr (.inl ⟨result, rfl, none, by rw [refused]; rfl⟩)

/-- The least integer is a power of minus two, and the only one that cannot be divided by minus
one. -/
example : compute .pow (.int (-2)) (.int 63) = .ok (.int Int64.minValue) ∧
    compute .div (.int Int64.minValue) (.int (-1)) = .error (.of (.integerOverflow .div)) :=
  ⟨rfl, rfl⟩

end Value

end Reckon
