import Reckon.Number.Numeral
import Reckon.Proofs.Tree.Shape

/-!
Which texts are read as numbers. The digits of an integer are counted within a limit only, and yet
an integer is read exactly if 64 bits hold what its digits write. A text that tokens or trees have
for a number is always read.
-/

namespace Reckon.Number

/-- The integer that a text is the decimal form of, whatever its size. -/
def exactInteger? (chars : List Char) : Option Int :=
  let (negative, rest) := splitSign chars
  (digits? rest).map fun digits => applySign negative (ofDigits digits)

/-- More than 64 bits hold. -/
def IsBeyond (number : Int) : Prop :=
  number < Int64.minValue.toInt ∨ Int64.maxValue.toInt < number

/-- Counting within a limit is exact, or both numbers are beyond the limit. -/
theorem of_digits_within (limit : Nat) (digits : List Nat) :
    ofDigitsWithin limit digits = ofDigits digits ∨
      limit ≤ ofDigitsWithin limit digits ∧ limit ≤ ofDigits digits := by
  suffices general : ∀ counted exact : Nat, (counted = exact ∨ limit ≤ counted ∧ limit ≤ exact) →
      let within := digits.foldl (fun number digit =>
        if number < limit then 10 * number + digit else number) counted
      let whole := digits.foldl (fun number digit => 10 * number + digit) exact
      within = whole ∨ limit ≤ within ∧ limit ≤ whole from general 0 0 (.inl rfl)
  induction digits with
  | nil => exact fun _ _ same => same
  | cons digit digits induction =>
      intro counted exact same
      apply induction
      simp only
      by_cases below : counted < limit
      · rw [if_pos below]
        rcases same with rfl | ⟨beyond, _⟩
        · exact .inl rfl
        · omega
      · rw [if_neg below]
        right
        omega

theorem to_int64_eq_none {number : Int} (beyond : IsBeyond number) : toInt64? number = none := by
  rw [toInt64?, if_neg]
  rcases beyond with small | large <;> omega

theorem apply_sign_beyond {negative : Bool} {magnitude : Nat} (large : UInt64.size ≤ magnitude) :
    IsBeyond (applySign negative magnitude) := by
  rw [UInt64.size] at large
  rw [IsBeyond, Int64.toInt_minValue, Int64.toInt_maxValue]
  cases negative <;> simp only [applySign, if_true, if_false, Bool.false_eq_true] <;> omega

/-- The limit on the digits of an integer leaves out none that 64 bits hold. -/
theorem read_int_eq (text : String) :
    readInt? text = (exactInteger? text.toList).bind toInt64? := by
  rw [readInt?, integer?, exactInteger?]
  obtain ⟨negative, rest⟩ := splitSign text.toList
  cases same : digits? rest with
  | none => simp [same]
  | some digits =>
      simp only [same, Option.map_some, Option.bind_some, bind]
      rcases of_digits_within UInt64.size digits with same | ⟨counted, exact⟩
      · rw [same]
      · rw [to_int64_eq_none (apply_sign_beyond counted),
          to_int64_eq_none (apply_sign_beyond exact)]

theorem digit_value {char : Char} (digit : Scan.isDigit char = true) :
    digitValue? char = some (char.toNat - '0'.toNat) := by
  simp only [Scan.isDigit, Bool.and_eq_true, decide_eq_true_eq] at digit
  exact if_pos digit

theorem digits_of_digits {chars : List Char} (digits : Scan.IsDigits chars) :
    ∃ values, digits? chars = some values ∧ ofDigits values = Nat.ofDigitChars 10 chars 0 := by
  have read : ∀ {chars : List Char} (start : Nat), (∀ char ∈ chars, Scan.isDigit char = true) →
      ∃ values, chars.mapM digitValue? = some values ∧
        values.foldl (fun number digit => 10 * number + digit) start =
          Nat.ofDigitChars 10 chars start := by
    intro chars
    induction chars with
    | nil => exact fun _ _ => ⟨[], rfl, rfl⟩
    | cons char chars induction =>
        intro start all
        obtain ⟨values, rest, same⟩ := induction (10 * start + (char.toNat - '0'.toNat))
          fun other member => all other (by simp [member])
        refine ⟨(char.toNat - '0'.toNat) :: values, ?_, ?_⟩
        · simp [digit_value (all char (by simp)), rest]
        · rw [List.foldl_cons, same]
          rfl
  obtain ⟨values, same, whole⟩ := read 0 digits.2
  refine ⟨values, ?_, whole⟩
  rw [digits?, if_neg (by simpa using digits.1), same]

theorem split_sign {sign chars : List Char} (signed : Scan.IsSign sign)
    (begins : ∃ first rest, chars = first :: rest ∧ Scan.isDigit first = true) :
    splitSign (sign ++ chars) = (decide (sign = ['-']), chars) := by
  rcases signed with rfl | rfl | rfl
  · obtain ⟨first, rest, rfl, digit⟩ := begins
    rw [List.nil_append, splitSign]
    · rfl
    · rintro others ⟨⟩
      exact absurd digit (by decide)
    · rintro others ⟨⟩
      exact absurd digit (by decide)
  · rfl
  · rfl

theorem exact_of_sign_and_digits {sign digits : List Char} (signed : Scan.IsSign sign)
    (read : Scan.IsDigits digits) : exactInteger? (sign ++ digits) =
      some (applySign (decide (sign = ['-'])) (Nat.ofDigitChars 10 digits 0)) := by
  have split := split_sign signed (Scan.first_of_digits read)
  obtain ⟨values, same, whole⟩ := digits_of_digits read
  rw [exactInteger?, split]
  simp only [same, Option.map_some, whole]

/-- The text of an integer literal writes an integer, which is read if 64 bits hold it. -/
theorem exact_of_signed_digits {text : String} (read : Shape.IsSigned Scan.IsDigits text) :
    ∃ value, exactInteger? text.toList = some value ∧ readInt? text = toInt64? value := by
  obtain ⟨sign, digits, chars, signed, unsignedDigits⟩ := read
  have exact := exact_of_sign_and_digits signed unsignedDigits
  rw [← chars] at exact
  exact ⟨_, exact, by rw [read_int_eq, exact, Option.bind_some]⟩

theorem integer_of_signed_digits (limit : Nat) {sign digits : List Char}
    (signed : Scan.IsSign sign) (read : Scan.IsDigits digits) :
    ∃ value, integer? limit (sign ++ digits) = some value := by
  have split := split_sign signed (Scan.first_of_digits read)
  obtain ⟨values, same, _⟩ := digits_of_digits read
  simp only [integer?, split, same, Option.map_some]
  exact ⟨_, rfl⟩

theorem unmarked_of_digits {chars : List Char} (digits : ∀ char ∈ chars, Scan.isDigit char = true) :
    ∀ char ∈ chars, char ≠ 'e' ∧ char ≠ 'E' := by
  intro char member
  constructor <;> rintro rfl <;> exact absurd (digits _ member) (by decide)

theorem no_point_of_digits {chars : List Char} (digits : ∀ char ∈ chars, Scan.isDigit char = true) :
    ∀ char ∈ chars, (char != '.') = true := by
  intro char member
  rw [bne_iff_ne]
  rintro rfl
  exact absurd (digits _ member) (by decide)

theorem take_while_digits {belongs : Char → Bool} {digits rest : List Char} {next : Char}
    (all : ∀ char ∈ digits, belongs char = true) (ends : belongs next = false) :
    (digits ++ next :: rest).takeWhile belongs = digits := by
  rw [List.takeWhile_append_of_pos all, List.takeWhile_cons_of_neg (by simp [ends]),
    List.append_nil]

theorem split_exponent_none {chars : List Char} (plain : ∀ char ∈ chars, char ≠ 'e' ∧ char ≠ 'E') :
    splitExponent chars = (chars, none) := by
  have whole : chars.takeWhile (fun char => char != 'e' && char != 'E') = chars := by
    rw [List.takeWhile_eq_self_iff]
    intro char member
    simpa using plain char member
  rw [splitExponent, whole]
  simp

theorem split_exponent_some {mantissa : List Char} {mark : Char}
    (plain : ∀ char ∈ mantissa, char ≠ 'e' ∧ char ≠ 'E') (marked : mark = 'e' ∨ mark = 'E')
    (exponent : List Char) :
    splitExponent (mantissa ++ mark :: exponent) = (mantissa, some exponent) := by
  have whole : (mantissa ++ mark :: exponent).takeWhile
      (fun char => char != 'e' && char != 'E') = mantissa := by
    apply take_while_digits
    · intro char member
      simpa using plain char member
    · rcases marked with rfl | rfl <;> rfl
  rw [splitExponent, whole]
  simp

theorem decimal_of_real {chars : List Char} (real : Scan.IsReal chars) :
    ∃ number, decimal? chars = some number := by
  cases real with
  | @point whole fraction digits rest =>
      have plain : ∀ char ∈ whole ++ '.' :: fraction, char ≠ 'e' ∧ char ≠ 'E' := by
        intro char member
        simp only [List.mem_append, List.mem_cons] at member
        rcases member with member | rfl | member
        · exact unmarked_of_digits digits.2 char member
        · decide
        · exact unmarked_of_digits rest char member
      have cut : splitPoint (whole ++ '.' :: fraction) = (whole, fraction) := by
        have before : (whole ++ '.' :: fraction).takeWhile (· != '.') = whole :=
          take_while_digits (no_point_of_digits digits.2) rfl
        rw [splitPoint, before]
        simp
      have all : Scan.IsDigits (whole ++ fraction) := by
        refine ⟨by simp [digits.1], fun char member => ?_⟩
        rcases List.mem_append.mp member with member | member
        · exact digits.2 char member
        · exact rest char member
      obtain ⟨values, same, _⟩ := digits_of_digits all
      simp [decimal?, split_exponent_none plain, cut, same]
  | @exponent whole sign power mark digits marked signed rest =>
      have split := split_exponent_some (unmarked_of_digits digits.2) marked (sign ++ power)
      have cut : splitPoint whole = (whole, []) := by
        have before : whole.takeWhile (· != '.') = whole :=
          List.takeWhile_eq_self_iff.mpr (no_point_of_digits digits.2)
        rw [splitPoint, before]
        simp
      obtain ⟨scale, read⟩ := integer_of_signed_digits exponentLimit signed rest
      obtain ⟨values, same, _⟩ := digits_of_digits digits
      simp [decimal?, split, cut, read, same]

/-- The text of a literal of a real number is always read. -/
theorem read_num_of_signed_real {text : String} (read : Shape.IsSigned Scan.IsReal text) :
    ∃ number, readNum? text = some number := by
  obtain ⟨sign, chars, same, signed, real⟩ := read
  have split := split_sign signed (Scan.first_of_real real)
  obtain ⟨number, decimal⟩ := decimal_of_real real
  rw [readNum?, same, split]
  simp only [decimal]
  cases word? chars <;> exact ⟨_, rfl⟩

end Reckon.Number
