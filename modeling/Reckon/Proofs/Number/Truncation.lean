import Reckon.Proofs.Number.Exact
import Reckon.Value

/-!
Cutting off the fraction of a number. A number without its fraction is one of the format again, and
comparing it with the limits of the 64-bit integers is exact. So the conversion that follows never
meets a number that it would have to saturate, and the integer is the number that was left.
-/

namespace Reckon

namespace Number

namespace Binary

variable {bits below : Nat}

/-! Bits below the point, cut off. -/

theorem leading_bit_eq (inside : below ≤ 52) : leadingBit = 2 ^ (52 - below) * 2 ^ below := by
  rw [← Nat.pow_add, Nat.sub_add_cancel inside]
  rfl

/-- The last bits of a pattern are those of its fraction. -/
theorem cut_bits (bits : Nat) (inside : below ≤ 52) :
    bits >>> below <<< below =
      bits / leadingBit * leadingBit + bits % leadingBit / 2 ^ below * 2 ^ below := by
  have split := Nat.div_add_mod' bits leadingBit
  rw [Nat.shiftRight_eq_div_pow, Nat.shiftLeft_eq]
  conv_lhs => rw [← split]
  rw [leading_bit_eq inside, ← Nat.mul_assoc, Nat.add_comm,
    Nat.add_mul_div_right _ _ (Nat.two_pow_pos below), Nat.add_mul, Nat.add_comm]

theorem cut_significand (fraction : Nat) (inside : below ≤ 52) :
    (leadingBit + fraction) / 2 ^ below * 2 ^ below =
      leadingBit + fraction / 2 ^ below * 2 ^ below := by
  rw [leading_bit_eq inside, Nat.add_comm, Nat.add_mul_div_right _ _ (Nat.two_pow_pos below),
    Nat.add_mul, Nat.add_comm]

/-- With the last bits of its fraction cut off, a pattern has the same sign and exponent. -/
theorem of_cut_bits (inside : below ≤ 52) (least : biasedExponent bits ≠ 0)
    (finite : biasedExponent bits ≠ 2047) : ofBits (bits >>> below <<< below) =
      .finite (bits >>> 63 % 2 == 1) ((leadingBit + bits % leadingBit) / 2 ^ below * 2 ^ below)
        (minExponent + (biasedExponent bits - 1 : ℕ)) := by
  have fraction : bits % leadingBit / 2 ^ below * 2 ^ below < leadingBit :=
    Nat.lt_of_le_of_lt (Nat.div_mul_le_self _ _) (Nat.mod_lt _ (by decide))
  rw [cut_significand _ inside, cut_bits bits inside]
  generalize bits % leadingBit / 2 ^ below * 2 ^ below = rest at fraction ⊢
  have leading : leadingBit = 4503599627370496 := rfl
  rw [leading] at fraction
  have sign : (bits / leadingBit * leadingBit + rest) >>> 63 % 2 = bits >>> 63 % 2 := by
    simp only [leading, Nat.shiftRight_eq_div_pow, Nat.reducePow]
    omega
  have biased : biasedExponent (bits / leadingBit * leadingBit + rest) = biasedExponent bits := by
    simp only [biasedExponent, leading, Nat.shiftRight_eq_div_pow, Nat.reducePow]
    omega
  have kept : (bits / leadingBit * leadingBit + rest) % leadingBit = rest := by
    rw [leading]
    omega
  rw [of_bits_finite (by rwa [biased]), sign, biased, kept, if_neg least]

/-- A pattern that has nothing but its sign is a zero. -/
theorem of_sign_bit (bits : Nat) :
    ofBits (bits >>> 63 <<< 63) = .finite (bits >>> 63 % 2 == 1) 0 minExponent := by
  have sign : (bits >>> 63 <<< 63) >>> 63 % 2 = bits >>> 63 % 2 := by
    simp only [Nat.shiftRight_eq_div_pow, Nat.shiftLeft_eq, Nat.reducePow]
    omega
  have biased : biasedExponent (bits >>> 63 <<< 63) = 0 := by
    simp only [biasedExponent, Nat.shiftRight_eq_div_pow, Nat.shiftLeft_eq, Nat.reducePow]
    omega
  have fraction : (bits >>> 63 <<< 63) % leadingBit = 0 := by
    have leading : leadingBit = 4503599627370496 := rfl
    simp only [leading, Nat.shiftRight_eq_div_pow, Nat.shiftLeft_eq, Nat.reducePow]
    omega
  rw [of_bits_finite (by rw [biased]; decide), sign, biased, fraction]
  rfl

end Binary

/-- The sign of a number stays where its fraction is cut off. -/
theorem truncated_finite (negative : Bool) (significand : Nat) (exponent : Int) :
    truncated ((if negative then -1 else 1) * ((significand : ℚ) * 2 ^ exponent)) =
      if negative then -(wholePart significand exponent : ℤ)
        else wholePart significand exponent := by
  have whole : truncated ((significand : ℚ) * 2 ^ exponent) = wholePart significand exponent := by
    rw [truncated, if_pos (by positivity), whole_part_eq]
  cases negative with
  | false => simp [whole]
  | true => simp [truncated_neg, whole]

theorem whole_part_of_small {significand : Nat} {exponent : Int} (small : significand < 2 ^ 53)
    (low : exponent ≤ -53) : wholePart significand exponent = 0 := by
  cases exponent with
  | ofNat power =>
      change (power : ℤ) ≤ -53 at low
      omega
  | negSucc below =>
      have places : 2 ^ 53 ≤ 2 ^ (below + 1) := Nat.pow_le_pow_right (by decide) (by omega)
      rw [wholePart, Nat.shiftRight_eq_div_pow, Nat.div_eq_of_lt (Nat.lt_of_lt_of_le small places)]

theorem whole_part_of_whole (significand : Nat) {exponent : Int} (whole : 0 ≤ exponent) :
    (significand : ℚ) * 2 ^ exponent = wholePart significand exponent := by
  obtain ⟨power, rfl⟩ := Int.eq_ofNat_of_zero_le whole
  change (significand : ℚ) * 2 ^ (power : ℤ) = (significand <<< power : ℕ)
  rw [zpow_natCast, Nat.shiftLeft_eq]
  push_cast
  rfl

theorem whole_part_of_cut (significand : Nat) {exponent : Int} {below : Nat} (some : 0 < below)
    (places : exponent = -below) :
    ((significand / 2 ^ below * 2 ^ below : ℕ) : ℚ) * 2 ^ exponent =
      wholePart significand exponent := by
  obtain ⟨below, rfl⟩ := Nat.exists_eq_succ_of_ne_zero some.ne'
  obtain rfl : exponent = Int.negSucc below := places
  rw [wholePart, Nat.shiftRight_eq_div_pow, zpow_negSucc]
  push_cast
  field_simp

section

open Binary

variable {number : Float} {bits : Nat} (pattern : number.toBits.toNat = bits)

include pattern

theorem trunc_of_large (large : 1075 ≤ biasedExponent bits) : trunc number = number := by
  rw [biasedExponent, ← pattern] at large
  rw [trunc, if_neg (by omega), if_pos large]

theorem of_float_trunc_small (small : biasedExponent bits < 1023) :
    ofFloat (trunc number) = .finite (bits >>> 63 % 2 == 1) 0 minExponent := by
  have size : number.toBits.toNat < 2 ^ 64 := number.toBits.toNat_lt
  have sign : number.toBits.toNat >>> 63 <<< 63 < UInt64.size := by
    simp only [Nat.shiftRight_eq_div_pow, Nat.shiftLeft_eq, Nat.reducePow, UInt64.size]
    omega
  rw [biasedExponent, ← pattern] at small
  rw [trunc, if_pos small, of_float_of_bits, UInt64.toNat_ofNat_of_lt' sign, of_sign_bit, pattern]

theorem of_float_trunc_between (least : 1023 ≤ biasedExponent bits)
    (greatest : biasedExponent bits < 1075) :
    ofFloat (trunc number) = .finite (bits >>> 63 % 2 == 1)
      ((leadingBit + bits % leadingBit) / 2 ^ (1075 - biasedExponent bits) *
        2 ^ (1075 - biasedExponent bits))
      (minExponent + (biasedExponent bits - 1 : ℕ)) := by
  have size : number.toBits.toNat < 2 ^ 64 := number.toBits.toNat_lt
  have inside : bits >>> (1075 - biasedExponent bits) <<< (1075 - biasedExponent bits) <
      UInt64.size := by
    rw [Nat.shiftRight_eq_div_pow, Nat.shiftLeft_eq]
    exact Nat.lt_of_le_of_lt (Nat.div_mul_le_self _ _) (pattern ▸ size)
  have cut : trunc number = .ofBits
      (.ofNat (bits >>> (1075 - biasedExponent bits) <<< (1075 - biasedExponent bits))) := by
    rw [biasedExponent, ← pattern] at least greatest ⊢
    rw [trunc, if_neg (by omega), if_neg (by omega)]
  rw [cut, of_float_of_bits, UInt64.toNat_ofNat_of_lt' inside,
    of_cut_bits (by omega) (by omega) (by omega)]

end

/-- What is left of a finite number is its whole part. -/
theorem of_float_trunc_finite {number : Float} {negative : Bool} {significand : Nat}
    {exponent : Int} (finite : Binary.ofFloat number = .finite negative significand exponent) :
    ∃ significand' exponent', Binary.ofFloat (trunc number) =
      .finite negative significand' exponent' ∧
        (significand' : ℚ) * 2 ^ exponent' = wholePart significand exponent := by
  have format := Binary.in_format_of_bits finite
  have fields := finite.symm.trans (Binary.of_bits_finite (Binary.finite_of_bits finite))
  obtain ⟨sign, digits, place⟩ := Binary.finite.inj fields
  rw [Binary.minExponent] at place
  rcases Nat.lt_or_ge (Binary.biasedExponent number.toBits.toNat) 1023 with small | least
  · refine ⟨0, Binary.minExponent, by rw [of_float_trunc_small rfl small, sign], ?_⟩
    rw [whole_part_of_small format.small (by omega), Nat.cast_zero, zero_mul]
  rcases Nat.lt_or_ge (Binary.biasedExponent number.toBits.toNat) 1075 with greatest | large
  · rw [if_neg (by omega)] at digits
    refine ⟨_, _, by rw [of_float_trunc_between rfl least greatest, sign, ← digits], ?_⟩
    rw [Binary.minExponent, ← place]
    exact whole_part_of_cut significand (by omega) (by omega)
  · exact ⟨significand, exponent, by rw [trunc_of_large rfl large, finite],
      whole_part_of_whole significand (by omega)⟩

/-- A number of the format without its fraction is one of the format again. -/
theorem of_float_trunc (number : Float) : (Binary.ofFloat (trunc number)).value? =
    (Binary.ofFloat number).value?.map fun exact => (truncated exact : ℚ) := by
  by_cases infinite : Binary.biasedExponent number.toBits.toNat = 2047
  · rw [trunc_of_large rfl (by omega), Binary.ofFloat, Binary.of_bits_infinite infinite]
    rfl
  · have finite := Binary.of_bits_finite infinite
    obtain ⟨significand, exponent, left, whole⟩ := of_float_trunc_finite finite
    rw [left, Binary.ofFloat, finite, Binary.value?, Binary.value?, Option.map_some,
      truncated_finite, whole]
    split <;> simp

example : trunc (-5.9) = -5.0 := by decide +kernel

/-- What is finite has a value. -/
theorem is_finite_iff (number : Float) :
    number.isFinite = (Binary.ofFloat number).value?.isSome := by
  have unpacked := Binary.unpacks_of_float number
  change number.toModel.unpack.isFinite = _
  generalize Binary.ofFloat number = format, number.toModel.unpack = native at unpacked
  cases unpacked <;> rfl

theorem compare_scaled (left right : ℕ) {unit : ℚ} (positive : 0 < unit) :
    compare (left * unit) (right * unit) = compare left right := by
  have mono : StrictMono fun number : ℕ => (number : ℚ) * unit := fun _ _ less =>
    mul_lt_mul_of_pos_right (Nat.cast_lt.mpr less) positive
  rw [← cmp_eq_compare, ← cmp_eq_compare]
  exact mono.cmp_map_eq left right

theorem compare_negated (left right : ℚ) : compare (-left) (-right) = compare right left := by
  have anti : StrictAnti fun number : ℚ => -number := fun _ _ => neg_lt_neg
  rw [← cmp_eq_compare, ← cmp_eq_compare]
  exact anti.cmp_map_eq left right

/-- Two to the sixty-third is the leading bit alone, with the exponent eleven. With that exponent
the significands compare as the numbers do, and otherwise the exponents. -/
theorem compare_magnitude {significand : Nat} {exponent : Int}
    (format : Binary.InFormat significand exponent) :
    (compare exponent 11).then (compare significand (2 ^ 52)) =
      compare ((significand : ℚ) * 2 ^ exponent) (2 ^ 63) := by
  rcases lt_trichotomy exponent 11 with low | rfl | high
  · have small : (significand : ℚ) < 2 ^ 53 := by exact_mod_cast format.small
    have below : (significand : ℚ) * 2 ^ exponent < 2 ^ 63 := by
      calc (significand : ℚ) * 2 ^ exponent < 2 ^ 53 * 2 ^ exponent := by gcongr
        _ ≤ 2 ^ 53 * 2 ^ (10 : ℤ) := by gcongr <;> first | omega | exact one_le_two
        _ = 2 ^ 63 := by norm_num
    rw [compare_lt_iff_lt.mpr low, compare_lt_iff_lt.mpr below]
    rfl
  · have scaled : (2 : ℚ) ^ 63 = (2 ^ 52 : ℕ) * 2 ^ (11 : ℤ) := by norm_num
    rw [compare_eq_iff_eq.mpr rfl, scaled, compare_scaled _ _ (by norm_num)]
    rfl
  · have least : Binary.minExponent < exponent := by
      rw [Binary.minExponent]
      omega
    have leading : (2 : ℚ) ^ 52 ≤ significand := by exact_mod_cast format.leading least
    have above : 2 ^ 63 < (significand : ℚ) * 2 ^ exponent := by
      calc (2 : ℚ) ^ 63 < 2 ^ 52 * 2 ^ (12 : ℤ) := by norm_num
        _ ≤ 2 ^ 52 * 2 ^ exponent := by gcongr <;> first | omega | exact one_le_two
        _ ≤ significand * 2 ^ exponent := by gcongr
    rw [compare_gt_iff_gt.mpr high, compare_gt_iff_gt.mpr above]
    rfl

section

variable {negative : Bool} {significand : Nat} {exponent : Int} {native : Float.Model.UnpackedFloat}
  (format : Binary.InFormat significand exponent)
  (unpacked : (Binary.finite negative significand exponent).Unpacks native)

include format unpacked

/-- Every number that is not positive comes before the limit. -/
theorem compare_limit : native.compare Value.integerLimit.toModel.unpack =
    some (compare
      ((if negative then -1 else 1) * ((significand : ℚ) * 2 ^ exponent)) (2 ^ 63)) := by
  have limit : Value.integerLimit.toModel.unpack = .finite .positive (2 ^ 52) 11 (by decide) := rfl
  rw [limit]
  cases unpacked with
  | zero =>
      rw [Nat.cast_zero, zero_mul, mul_zero, compare_lt_iff_lt.mpr (by norm_num)]
      rfl
  | finite _ _ positive =>
      have magnitude : (0 : ℚ) < significand * 2 ^ exponent := by positivity
      cases negative with
      | false =>
          rw [if_neg Bool.false_ne_true, one_mul, ← compare_magnitude format]
          rfl
      | true =>
          rw [if_pos rfl, compare_lt_iff_lt.mpr (by linarith)]
          rfl

/-- Every number that is not negative comes behind the least integer. -/
theorem compare_neg_limit : (-Value.integerLimit).toModel.unpack.compare native =
    some (compare (-2 ^ 63)
      ((if negative then -1 else 1) * ((significand : ℚ) * 2 ^ exponent))) := by
  have limit : (-Value.integerLimit).toModel.unpack =
      .finite .negative (2 ^ 52) 11 (by decide) := rfl
  rw [limit]
  cases unpacked with
  | zero =>
      rw [Nat.cast_zero, zero_mul, mul_zero, compare_lt_iff_lt.mpr (by norm_num)]
      rfl
  | finite _ _ positive =>
      have magnitude : (0 : ℚ) < significand * 2 ^ exponent := by positivity
      cases negative with
      | false =>
          rw [if_neg Bool.false_ne_true, compare_lt_iff_lt.mpr (by linarith)]
          rfl
      | true =>
          rw [if_pos rfl, neg_one_mul, compare_negated, ← compare_magnitude format]
          change some (((compare 11 exponent).then (compare (2 ^ 52) significand)).swap) = _
          rw [Ordering.swap_then, Int.compare_swap, Nat.compare_swap]

end

section

variable {number : Float} {exact : ℚ}

theorem finite_of_value (value : (Binary.ofFloat number).value? = some exact) :
    ∃ negative significand exponent, Binary.InFormat significand exponent ∧
      (Binary.finite negative significand exponent).Unpacks number.toModel.unpack ∧
      exact = (if negative then -1 else 1) * ((significand : ℚ) * 2 ^ exponent) := by
  have unpacked := Binary.unpacks_of_float number
  cases same : Binary.ofFloat number with
  | nan => rw [same] at value; cases value
  | infinite => rw [same] at value; cases value
  | finite negative significand exponent =>
      rw [same] at value unpacked
      exact ⟨negative, significand, exponent, Binary.in_format_of_bits same, unpacked,
        (Option.some_inj.mp value).symm⟩

theorem lt_limit_iff (value : (Binary.ofFloat number).value? = some exact) :
    number < Value.integerLimit ↔ exact < 2 ^ 63 := by
  obtain ⟨_, _, _, format, unpacked, rfl⟩ := finite_of_value value
  change decide (number.toModel < Value.integerLimit.toModel) = true ↔ _
  rw [decide_eq_true_iff]
  change (number.toModel.unpack.compare Value.integerLimit.toModel.unpack == some .lt) = true ↔ _
  rw [beq_iff_eq, compare_limit format unpacked, Option.some_inj, compare_lt_iff_lt]

theorem neg_limit_le_iff (value : (Binary.ofFloat number).value? = some exact) :
    -Value.integerLimit ≤ number ↔ -2 ^ 63 ≤ exact := by
  obtain ⟨_, _, _, format, unpacked, rfl⟩ := finite_of_value value
  change decide ((-Value.integerLimit).toModel ≤ number.toModel) = true ↔ _
  rw [decide_eq_true_iff]
  change (((-Value.integerLimit).toModel.unpack.compare number.toModel.unpack).any
    fun order => order.isLE) = true ↔ _
  rw [compare_neg_limit format unpacked, Option.any_some, ← Ordering.ne_gt_iff_isLE]
  exact compare_le_iff_le

end

theorem saturate_eq {number : Float} {exact : ℚ}
    (value : (Binary.ofFloat number).value? = some exact) :
    saturate number = .ofIntClamp (truncated exact) := by
  rw [saturate]
  cases format : Binary.ofFloat number with
  | nan => rw [format] at value; cases value
  | infinite => rw [format] at value; cases value
  | finite negative significand exponent =>
      rw [format] at value
      cases value
      rw [truncated_finite]

end Number

namespace Value

open Number

/-- The range test of a number without its fraction is that of the integer, which is then converted
as it is. -/
theorem truncate_eq (number : Float) :
    truncate? number = ((Binary.ofFloat number).value?.map truncated).bind toInt64? := by
  have least : Int64.minValue.toInt = -2 ^ 63 := rfl
  have greatest : Int64.maxValue.toInt = 2 ^ 63 - 1 := rfl
  have left := of_float_trunc number
  cases value : (Binary.ofFloat number).value? with
  | none =>
      rw [value] at left
      have infinite : (trunc number).isFinite = false := by
        rw [is_finite_iff, left]
        rfl
      rw [truncate?, infinite]
      rfl
  | some exact =>
      replace left : (Binary.ofFloat (trunc number)).value? = some (truncated exact : ℚ) := by
        rw [left, value]
        rfl
      have finite : (trunc number).isFinite = true := by
        rw [is_finite_iff, left]
        rfl
      have above : -integerLimit ≤ trunc number ↔ -2 ^ 63 ≤ truncated exact := by
        rw [neg_limit_le_iff left]
        exact_mod_cast Iff.rfl
      have below : trunc number < integerLimit ↔ truncated exact < 2 ^ 63 := by
        rw [lt_limit_iff left]
        exact_mod_cast Iff.rfl
      rw [truncate?, Option.map_some, Option.bind_some, toInt64?]
      have range : (Int64.minValue.toInt ≤ truncated exact ∧
          truncated exact ≤ Int64.maxValue.toInt) ↔
            -2 ^ 63 ≤ truncated exact ∧ truncated exact < 2 ^ 63 := by omega
      by_cases fits : -2 ^ 63 ≤ truncated exact ∧ truncated exact < 2 ^ 63
      · obtain ⟨low, high⟩ := range.mpr fits
        have whole : saturate (trunc number) = .ofInt (truncated exact) := by
          rw [saturate_eq left, truncated_integer, ← @Int64.ofIntLE_eq_ofIntClamp _ low high,
            Int64.ofIntLE_eq_ofInt]
        rw [finite, decide_eq_true (above.mpr fits.1), decide_eq_true (below.mpr fits.2),
          if_pos (range.mpr fits), whole]
        rfl
      · rw [if_neg (mt range.mp fits), if_neg]
        simp only [finite, Bool.true_and, Bool.and_eq_true, decide_eq_true_eq]
        rwa [above, below]

/-- The number of a pattern becomes the integer that is left when its fraction is cut off, if that
is one of 64 bits, and is refused as it is otherwise. -/
theorem convert_to_int (bits : UInt64) :
    (∀ exact ∈ Number.exactValue? bits,
      -2 ^ 63 ≤ truncated exact → truncated exact < 2 ^ 63 →
        ∃ number : Int64, number.toInt = truncated exact ∧
          (Value.num (.ofBits bits)).convert .int = .ok (.int number)) ∧
    ((∀ exact ∈ Number.exactValue? bits,
      truncated exact < -2 ^ 63 ∨ 2 ^ 63 ≤ truncated exact) →
        (Value.num (.ofBits bits)).convert .int =
          .error (.of (.incompatibleValue .int (.num (.ofBits bits))))) := by
  have least : Int64.minValue.toInt = -2 ^ 63 := rfl
  have greatest : Int64.maxValue.toInt = 2 ^ 63 - 1 := rfl
  have converted : (Value.num (.ofBits bits)).convert? .int =
      (((Number.exactValue? bits).map truncated).bind Number.toInt64?).map .int := by
    rw [convert?, truncate_eq, Binary.of_float_of_bits, Binary.value_of_bits]
  rw [convert, converted]
  constructor
  · intro exact stands above below
    refine ⟨.ofInt (truncated exact), Int64.toInt_ofInt_of_le above below, ?_⟩
    rw [Option.mem_def.mp stands, Option.map_some, Option.bind_some, Number.toInt64?, least,
      greatest, if_pos ⟨above, Int.le_sub_one_of_lt below⟩]
    rfl
  · intro beyond
    cases stands : Number.exactValue? bits with
    | none => rfl
    | some exact =>
        have outside := beyond exact stands
        rw [Option.map_some, Option.bind_some, Number.toInt64?, least, greatest, if_neg (by omega)]
        rfl

end Value

end Reckon
