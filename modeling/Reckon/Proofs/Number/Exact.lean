import Mathlib
import Reckon.Number.Binary
import Reckon.Proofs.Arithmetic.Exact

/-!
The exact value of a bit pattern. The format says which rational number each pattern stands for, and
the sign, significand and exponent that are read off the pattern are those of that number. The float
library takes the pattern apart in the same way.
-/

namespace Reckon

namespace Number

/-- The rational number that a bit pattern stands for, if it is finite: a bit for the sign, eleven
for a biased exponent and fifty-two for a fraction. Where the biased exponent is zero, the fraction
is that of a number too small to have a one before its point. -/
def exactValue? (bits : UInt64) : Option ℚ :=
  let sign : ℚ := if bits.toNat / 2 ^ 63 = 0 then 1 else -1
  let biased : ℕ := bits.toNat / 2 ^ 52 % 2048
  let fraction : ℚ := ((bits.toNat % 2 ^ 52 : ℕ) : ℚ) / 2 ^ 52
  if biased = 2047 then none
  else if biased = 0 then some (sign * fraction * 2 ^ (-1022 : ℤ))
  else some (sign * (1 + fraction) * 2 ^ ((biased : ℤ) - 1023))

namespace Binary

/-- The number that sign, significand and exponent write. -/
def value? : Binary → Option ℚ
  | .nan => none
  | .infinite _ => none
  | .finite negative significand exponent =>
      some ((if negative then -1 else 1) * (significand * 2 ^ exponent))

/-- A fraction below the point is a significand that counts its last place. -/
theorem scaled_eq (sign : ℚ) (fraction : ℕ) (exponent : ℤ) :
    sign * (fraction * 2 ^ (exponent - 52)) = sign * (fraction / 2 ^ 52) * 2 ^ exponent := by
  rw [zpow_sub₀ two_ne_zero]
  norm_cast
  ring

theorem sign_of_bits (bits : UInt64) :
    (if (bits.toNat >>> 63 % 2 == 1) = true then -1 else 1 : ℚ) =
      if bits.toNat / 2 ^ 63 = 0 then 1 else -1 := by
  have below : bits.toNat / 2 ^ 63 < 2 := by
    have size := bits.toNat_lt
    omega
  rw [Nat.shiftRight_eq_div_pow, Nat.mod_eq_of_lt below]
  rcases Nat.lt_succ_iff_lt_or_eq.mp below with zero | one
  · rw [Nat.lt_one_iff.mp zero]
    rfl
  · rw [one]
    rfl

theorem value_of_bits (bits : UInt64) : (ofBits bits.toNat).value? = exactValue? bits := by
  have leading : leadingBit = 2 ^ 52 := rfl
  have sign := sign_of_bits bits
  rw [ofBits, exactValue?, Nat.shiftRight_eq_div_pow bits.toNat 52, leading]
  generalize bits.toNat / 2 ^ 52 % 2048 = biased
  generalize bits.toNat % 2 ^ 52 = fraction
  by_cases infinite : biased = 2047
  · rw [if_pos infinite, if_pos infinite]
    split <;> rfl
  rw [if_neg infinite, if_neg infinite]
  by_cases small : biased = 0
  · rw [if_pos small, if_pos small, value?, sign, ← scaled_eq]
    rfl
  · have exponent : minExponent + ((biased - 1 : ℕ) : ℤ) = ((biased : ℤ) - 1023) - 52 := by
      rw [minExponent]
      omega
    have significand : (((2 ^ 52 + fraction : ℕ) : ℚ) / 2 ^ 52) = 1 + fraction / 2 ^ 52 := by
      push_cast
      ring
    rw [if_neg small, if_neg small, value?, sign, exponent, scaled_eq, significand]

/-- The patterns of no number are those that the float library takes for such. -/
theorem nan_of_bits {bits : UInt64}
    (nan : @Float.Model.UnpackedFloat.isNaNBits .binary64 bits.toBitVec = true) :
    ofBits bits.toNat = .nan := by
  simp only [Float.Model.UnpackedFloat.isNaNBits, decide_eq_true_eq,
    Float.Model.UnpackedFloat.unpackExponent_def,
    Float.Model.UnpackedFloat.unpackMantissa_def] at nan
  have biased : bits.toNat >>> 52 % 2048 = 2047 := congrArg BitVec.toNat nan.1
  have fraction : bits.toNat % leadingBit ≠ 0 := fun zero => nan.2 (BitVec.eq_of_toNat_eq (by
    rw [BitVec.extractLsb'_toNat]
    exact zero))
  rw [ofBits, if_pos biased, if_neg fraction]

/-- A pattern stands for the same number once a float has been made of it. -/
theorem of_float_of_bits (bits : UInt64) : ofFloat (.ofBits bits) = ofBits bits.toNat := by
  have packed : (Float.ofBits bits).toBits.toBitVec = _ :=
    @Float.Model.UnpackedFloat.pack_unpack .binary64 bits.toBitVec (by decide)
  have same : (Float.ofBits bits).toBits.toNat = (Float.ofBits bits).toBits.toBitVec.toNat := rfl
  rw [ofFloat, same, packed]
  split
  · next nan => rw [nan_of_bits nan]; rfl
  · rfl

/-- A significand of at most fifty-three bits. Only with the least exponent it can have fewer. -/
structure InFormat (significand : Nat) (exponent : Int) : Prop where
  small : significand < 2 * leadingBit
  least : minExponent ≤ exponent
  greatest : exponent ≤ 971
  leading : minExponent < exponent → leadingBit ≤ significand

/-- The exponent as the pattern holds it. -/
def biasedExponent (bits : Nat) : Nat := bits >>> 52 % 2048

variable {bits : Nat}

/-- Only the greatest biased exponent is that of no finite number. -/
theorem of_bits_finite (finite : biasedExponent bits ≠ 2047) :
    ofBits bits = .finite (bits >>> 63 % 2 == 1)
      (if biasedExponent bits = 0 then bits % leadingBit else leadingBit + bits % leadingBit)
      (minExponent + (biasedExponent bits - 1 : ℕ)) := by
  rw [biasedExponent] at finite ⊢
  rw [ofBits, if_neg finite]
  by_cases least : bits >>> 52 % 2048 = 0
  · rw [if_pos least, if_pos least, least]
    rfl
  · rw [if_neg least, if_neg least]

theorem of_bits_infinite (infinite : biasedExponent bits = 2047) :
    (ofBits bits).value? = none := by
  rw [biasedExponent] at infinite
  rw [ofBits, if_pos infinite]
  split <;> rfl

theorem finite_of_bits {negative : Bool} {significand : Nat} {exponent : Int}
    (same : ofBits bits = .finite negative significand exponent) :
    biasedExponent bits ≠ 2047 := by
  intro infinite
  have none := of_bits_infinite infinite
  rw [same] at none
  cases none

theorem in_format_of_bits {significand : Nat} {exponent : Int} {negative : Bool}
    (same : ofBits bits = .finite negative significand exponent) :
    InFormat significand exponent := by
  have fraction : bits % leadingBit < leadingBit := Nat.mod_lt _ (by decide)
  have biased : biasedExponent bits < 2048 := Nat.mod_lt _ (by decide)
  have finite := finite_of_bits same
  rw [of_bits_finite finite] at same
  cases same
  refine ⟨?_, ?_, ?_, ?_⟩
  · split <;> omega
  · rw [minExponent]
    omega
  · rw [minExponent]
    omega
  · intro more
    rw [if_neg (by omega)]
    exact Nat.le_add_right _ _

/-! What the float library takes a pattern apart into. -/

open Float.Model Float.Model.UnpackedFloat

def signOf (negative : Bool) : Sign := if negative then .negative else .positive

/-- The same number in the forms of the float library, in which zero is one of its own. -/
inductive Unpacks : Binary → UnpackedFloat → Prop where
  | nan : Unpacks .nan .notANumber
  | infinite (negative : Bool) : Unpacks (.infinite negative) (.infinity (signOf negative))
  | zero (negative : Bool) : Unpacks (.finite negative 0 minExponent) (.zero (signOf negative))
  | finite (negative : Bool) {significand : Nat} (exponent : Int) (positive : 0 < significand) :
      Unpacks (.finite negative significand exponent)
        (.finite (signOf negative) significand exponent positive)

theorem sign_of_bit (bit : BitVec 1) : Sign.ofBitVec bit = signOf (bit.toNat == 1) := by
  rcases BitVec.eq_zero_or_eq_one bit with rfl | rfl <;> rfl

theorem implicit_bit (mantissa : BitVec 52) :
    (1#1 ++ mantissa).toNat = leadingBit + mantissa.toNat := by
  rw [BitVec.toNat_append, ← Nat.shiftLeft_add_eq_or_of_lt mantissa.isLt]
  rfl

theorem unpacks_of_bits (bits : UInt64) :
    (ofBits bits.toNat).Unpacks (UnpackedFloat.unpack .binary64 bits.toBitVec) := by
  have sign : bits.toNat >>> 63 % 2 = (@unpackSign .binary64 bits.toBitVec).toNat := rfl
  have biased : bits.toNat >>> 52 % 2048 = (@unpackExponent .binary64 bits.toBitVec).toNat := rfl
  have fraction : bits.toNat % leadingBit = (@unpackMantissa .binary64 bits.toBitVec).toNat := rfl
  have ones : (@unpackExponent .binary64 bits.toBitVec).toNat = 2047 ↔
      @unpackExponent .binary64 bits.toBitVec = -1#11 := @BitVec.toNat_inj 11 _ (-1#11)
  have zeros : (@unpackExponent .binary64 bits.toBitVec).toNat = 0 ↔
      @unpackExponent .binary64 bits.toBitVec = 0#11 := @BitVec.toNat_inj 11 _ 0#11
  have nothing : (@unpackMantissa .binary64 bits.toBitVec).toNat = 0 ↔
      @unpackMantissa .binary64 bits.toBitVec = 0#52 := @BitVec.toNat_inj 52 _ 0#52
  have bias : Format.exponentBias .binary64 = 1023 := rfl
  rw [ofBits, UnpackedFloat.unpack, sign, biased, fraction, sign_of_bit]
  by_cases infinite : @unpackExponent .binary64 bits.toBitVec = -1#11
  · rw [if_pos infinite, if_pos (ones.mpr infinite)]
    by_cases none : @unpackMantissa .binary64 bits.toBitVec = 0#52
    · rw [if_pos none, if_pos (nothing.mpr none)]
      exact .infinite _
    · rw [if_neg none, if_neg (mt nothing.mp none)]
      exact .nan
  rw [if_neg infinite, if_neg (mt ones.mp infinite)]
  by_cases small : @unpackExponent .binary64 bits.toBitVec = 0#11
  · rw [if_pos small, if_pos (zeros.mpr small)]
    by_cases none : @unpackMantissa .binary64 bits.toBitVec = 0#52
    · rw [dif_pos none, nothing.mpr none]
      exact .zero _
    · have place : ((@unpackExponent .binary64 bits.toBitVec).toNat : ℤ) -
          ((Format.exponentBias .binary64 : ℕ) + (52 : ℕ)) + 1 = minExponent := by
        rw [zeros.mpr small]
        rfl
      rw [dif_neg none]
      simp only [place]
      exact .finite _ _ _
  · have place : ((@unpackExponent .binary64 bits.toBitVec).toNat : ℤ) -
        ((Format.exponentBias .binary64 : ℕ) + (52 : ℕ)) =
          minExponent + ((@unpackExponent .binary64 bits.toBitVec).toNat - 1 : ℕ) := by
      have some := mt zeros.mp small
      rw [minExponent, bias]
      omega
    rw [if_neg small, if_neg (mt zeros.mp small)]
    simp only [place, implicit_bit]
    exact .finite _ _ _

theorem unpacks_of_float (number : Float) : (ofFloat number).Unpacks number.toModel.unpack :=
  unpacks_of_bits number.toBits

end Binary

/-- The whole part is the next integer below. -/
theorem whole_part_eq (significand : Nat) (exponent : Int) :
    (wholePart significand exponent : ℤ) = ⌊(significand : ℚ) * 2 ^ exponent⌋ := by
  cases exponent with
  | ofNat exponent =>
      have integer : (significand : ℚ) * 2 ^ (Int.ofNat exponent) =
          ((significand * 2 ^ exponent : ℕ) : ℤ) := by
        push_cast
        rfl
      rw [wholePart, Nat.shiftLeft_eq, integer, Int.floor_intCast]
  | negSucc below =>
      have quotient : (significand : ℚ) * 2 ^ (Int.negSucc below) =
          significand / ((2 ^ (below + 1) : ℕ) : ℚ) := by
        rw [zpow_negSucc, div_eq_mul_inv]
        push_cast
        rfl
      rw [wholePart, Nat.shiftRight_eq_div_pow, quotient, Rat.floor_natCast_div_natCast]
      exact Int.natCast_div _ _

end Number

end Reckon
