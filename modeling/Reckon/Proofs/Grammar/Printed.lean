import Reckon.Proofs.Grammar.Numbers
import Reckon.Proofs.Number.Printing
import Reckon.Proofs.Number.Sizes
import Reckon.Value

/-!
The texts of finite numbers, read as programs. Such a text is a number again, unless it has both a
point and an exponent: then it is scanned as a number and a name, and no program.
-/

namespace Reckon

namespace Scan

/-- A number has a point or an exponent and not both. -/
theorem not_point_and_mark_of_real {text : List Char} (real : IsReal text) :
    ¬('.' ∈ text ∧ 'e' ∈ text) := by
  have no_point {digits : List Char} (all : ∀ char ∈ digits, isDigit char = true) :
      '.' ∉ digits ∧ 'e' ∉ digits :=
    ⟨fun member => absurd (all _ member) (by decide),
      fun member => absurd (all _ member) (by decide)⟩
  rintro ⟨point, mark⟩
  cases real with
  | point digits rest =>
      simp [no_point digits.2, no_point rest] at mark
  | exponent digits marked signed rest =>
      rcases marked with rfl | rfl <;> rcases signed with rfl | rfl | rfl <;>
        simp [no_point digits.2, no_point rest.2] at point

end Scan

/-- The number is scanned as one token, and with the sign before it a program that is the literal
and nothing else. -/
structure ReadsAsNumber (sign number : List Char) : Prop where
  scanned : ∃ stop, stop.kind = .eof ∧
    tokens (String.ofList number) = .ok [Scan.tokenAt .start .num number, stop]
  parsed : parse (String.ofList (sign ++ number)) =
    .ok [.ofNumber .numLiteral (String.ofList (sign ++ number)) (.ofText (sign ++ number))]

/-- The text is scanned as a number and then a name that begins with the mark of an exponent, and
with the sign before it the program is refused for that name. -/
def BreaksAtExponent (sign text : List Char) : Prop :=
  ∃ number name more, number ++ name <+: text ∧ Scan.IsReal number ∧ name.head? = some 'e' ∧
    tokens (String.ofList text) = .ok (Scan.tokenAt .start .num number ::
      Scan.tokenAt (Place.start.afterAll number) .ident name :: more) ∧
    parse (String.ofList (sign ++ text)) = .error (.unexpected .endOfStatement .ident
      (Scan.tokenAt (Place.start.afterAll (sign ++ number)) .ident name).location)

open Scan

theorem fits_without_sign {sign text : List Char}
    (fits : Text.byteSize (sign ++ text) ≤ Span.maxOffset) :
    Text.byteSize (String.ofList text).toList ≤ Span.maxOffset := by
  rw [Text.byte_size_append] at fits
  rw [String.toList_ofList]
  omega

theorem reads_as_number_of_real {sign number : List Char} (signed : IsSign sign)
    (real : IsReal number) (fits : Text.byteSize (sign ++ number) ≤ Span.maxOffset) :
    ReadsAsNumber sign number := by
  have described : TokenKind.num.Describes (String.ofList number) := by
    simpa [TokenKind.Describes] using real
  obtain ⟨_, stop, split, ends, scanned⟩ := unbounded_number (.inl rfl) (by decide) described
  cases split
  exact ⟨⟨stop, ends, tokens_of_unbounded scanned (fits_without_sign fits)⟩,
    parse_number signed .num described fits⟩

theorem breaks_at_exponent {sign fraction : List Char} {first : Char} {power : Int}
    (signed : IsSign sign) (digit : isDigit first = true) (digits : IsDigits fraction)
    (fits : Text.byteSize (sign ++ Number.pointAndExponent first fraction power) ≤
      Span.maxOffset) :
    BreaksAtExponent sign (Number.pointAndExponent first fraction power) := by
  obtain ⟨powerSign, chars, powerSigned, _⟩ := Number.integer_text power
  have whole : IsDigits [first] := ⟨List.cons_ne_nil _ _, by simpa using digit⟩
  have powered := Number.decimal_digits power.natAbs
  have text : Number.pointAndExponent first fraction power =
      [first] ++ '.' :: fraction ++ 'e' :: (powerSign ++ Nat.toDigits 10 power.natAbs) := by
    rw [Number.pointAndExponent, chars]
    rfl
  obtain ⟨_, more, split, scanned⟩ :=
    unbounded_split_number (.inl rfl) whole digits.2 (.inl rfl) powerSigned powered
  cases split
  rw [text] at fits
  refine ⟨[first] ++ '.' :: fraction, markedName 'e' powerSign (Nat.toDigits 10 power.natAbs), more,
    ?_, .point whole digits.2, ?_, ?_, ?_⟩
  · rw [text, List.prefix_append_right_inj, markedName]
    split
    · next none => rw [none]; exact List.prefix_rfl
    · exact ⟨_, rfl⟩
  · rw [markedName]
    split <;> rfl
  · rw [text]
    exact tokens_of_unbounded scanned (fits_without_sign fits)
  · rw [text]
    exact parse_split_number signed whole digits.2 (.inl rfl) powerSigned powered fits

/-- The text of a finite number is a minus sign or none and the digits of a number. Unless these
have both a point and an exponent, they are one token, and the whole text is a program that is this
number as a literal. With both a point and an exponent, which is so only for numbers that are not
zero and whose magnitude is not from 1e-5 up to 1e16, the text is scanned as a number and a name,
and the program is refused. -/
theorem finite_numbers_read_back {number : Float} {exact : ℚ}
    (finite : Number.exactValue? number.toBits = some exact) :
    ∃ sign text, (sign = [] ∨ sign = ['-']) ∧
      (Value.num number).text = String.ofList (sign ++ text) ∧
      (¬('.' ∈ text ∧ 'e' ∈ text) → ReadsAsNumber sign text) ∧
      ('.' ∈ text ∧ 'e' ∈ text → exact ≠ 0 ∧ ¬(1 / 10 ^ 5 ≤ |exact| ∧ |exact| < 10 ^ 16) ∧
        BreaksAtExponent sign text) := by
  have value : (Number.Binary.ofFloat number).value? = some exact :=
    (Number.Binary.value_of_bits number.toBits).trans finite
  have printed : (Value.num number).text =
      String.ofList (Number.Binary.ofFloat number).text := rfl
  rw [printed]
  cases format : Number.Binary.ofFloat number with
  | nan => rw [format] at value; cases value
  | infinite negative => rw [format] at value; cases value
  | finite negative significand exponent =>
      rw [format, Number.Binary.value?, Option.some.injEq] at value
      have magnitude : |exact| = significand * 2 ^ exponent := by
        have positive : (0 : ℚ) ≤ significand * 2 ^ exponent := by positivity
        rw [← value]
        cases negative <;> simp [abs_of_nonneg positive]
      have signed : IsSign (Number.signText negative) := by
        cases negative
        · exact .inl rfl
        · exact .inr (.inr rfl)
      have fits : Text.byteSize (Number.signText negative ++
          Number.magnitudeText significand exponent) ≤ Span.maxOffset :=
        Number.text_fits negative (Number.Binary.in_format_of_bits format)
      refine ⟨Number.signText negative, Number.magnitudeText significand exponent,
        by cases negative <;> simp [Number.signText], rfl, ?_, ?_⟩
      · intro plain
        rcases Number.magnitude_text_cases significand exponent with real | ⟨_, _, marked⟩
        · exact reads_as_number_of_real signed real fits
        · obtain ⟨first, fraction, power, _, _, same⟩ := marked
          exact absurd (by simp [same, Number.pointAndExponent]) plain
      · intro marked
        rcases Number.magnitude_text_cases significand exponent with real | ⟨positive, far, both⟩
        · exact absurd marked (not_point_and_mark_of_real real)
        · obtain ⟨first, fraction, power, digit, digits, same⟩ := both
          refine ⟨?_, ?_, ?_⟩
          · rw [← abs_pos, magnitude]
            positivity
          · rw [magnitude, ← Number.written_out_iff, far]
            exact Bool.false_ne_true
          · rw [same] at fits ⊢
            exact breaks_at_exponent signed digit digits fits

/-- A single digit with an exponent is read back. -/
theorem ten_to_the_16_reads_back :
    Number.exactValue? (1e16 : Float).toBits = some (10 ^ 16) ∧
    ∃ sign text,
      (Value.num 1e16).text = String.ofList (sign ++ text) ∧ ReadsAsNumber sign text := by
  have exact : Number.exactValue? (1e16 : Float).toBits = some (10 ^ 16) := by decide +kernel
  obtain ⟨sign, text, _, printed, plain, _⟩ := finite_numbers_read_back exact
  have whole : (Value.num 1e16).text = "1e16" := by decide
  refine ⟨exact, sign, text, printed, plain fun both => ?_⟩
  have chars : sign ++ text = "1e16".toList := by
    rw [← whole, printed, String.toList_ofList]
  have point : '.' ∈ "1e16".toList := by
    rw [← chars]
    exact List.mem_append_right _ both.1
  exact absurd point (by decide)

/-- A number whose text has digits behind a point and an exponent is not read back. -/
theorem small_fraction_is_not_read_back :
    Number.exactValue? (2.5e-9 : Float).toBits ≠ none ∧ (Value.num 2.5e-9).text = "2.5e-9" ∧
    parse "2.5e-9" = .error (.unexpected .endOfStatement .ident ⟨⟨3, 4⟩, ⟨1, 4⟩⟩) ∧
    ¬∃ sign text, (sign = [] ∨ sign = ['-']) ∧
      (Value.num 2.5e-9).text = String.ofList (sign ++ text) ∧ ReadsAsNumber sign text := by
  have printed : (Value.num 2.5e-9).text = "2.5e-9" := by decide
  have refused : parse "2.5e-9" =
      .error (.unexpected .endOfStatement .ident ⟨⟨3, 4⟩, ⟨1, 4⟩⟩) := by
    have two : IsDigits ['2'] := ⟨List.cons_ne_nil _ _, List.all_eq_true.mp rfl⟩
    have nine : IsDigits ['9'] := ⟨List.cons_ne_nil _ _, List.all_eq_true.mp rfl⟩
    exact @parse_split_number 'e' [] ['2'] ['5'] ['-'] ['9'] (.inl rfl) two
      (List.all_eq_true.mp rfl) (.inl rfl) (.inr (.inr rfl)) nine (by decide)
  refine ⟨by decide +kernel, printed, refused, ?_⟩
  rintro ⟨sign, text, _, same, reads⟩
  have parsed := reads.parsed
  rw [← same, printed, refused] at parsed
  cases parsed

end Reckon
