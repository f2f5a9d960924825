import Reckon.Proofs.Number.Integers
import Reckon.Value

/-!
The characters of written values: digits, a sign, a point, the letter of an exponent and those of
the names of what is not finite. So the text of a value is a piece of one line.
-/

namespace Reckon

namespace Number

/-- The characters that values are written with. -/
def isWritten (char : Char) : Bool :=
  Scan.isDigit char || ['-', '.', 'e', 'i', 'n', 'f', 'N', 'a'].contains char

def AllWritten (chars : List Char) : Prop := ∀ char ∈ chars, isWritten char = true

theorem all_written_nil : AllWritten [] := fun _ member => nomatch member

theorem all_written_cons {char : Char} {chars : List Char} :
    AllWritten (char :: chars) ↔ isWritten char = true ∧ AllWritten chars := List.forall_mem_cons

theorem all_written_append {first second : List Char} :
    AllWritten (first ++ second) ↔ AllWritten first ∧ AllWritten second :=
  List.forall_mem_append

theorem AllWritten.take {chars : List Char} (written : AllWritten chars) (count : Nat) :
    AllWritten (chars.take count) := fun char member => written char (List.mem_of_mem_take member)

theorem AllWritten.drop {chars : List Char} (written : AllWritten chars) (count : Nat) :
    AllWritten (chars.drop count) := fun char member => written char (List.mem_of_mem_drop member)

theorem all_written_replicate {char : Char} (written : isWritten char = true) (count : Nat) :
    AllWritten (List.replicate count char) := by
  intro other member
  rw [List.eq_of_mem_replicate member]
  exact written

theorem all_written_of_digits {chars : List Char}
    (digits : ∀ char ∈ chars, Scan.isDigit char = true) : AllWritten chars := by
  intro char member
  rw [isWritten, digits char member, Bool.true_or]

theorem decimal_digits_written (number : Nat) : AllWritten (decimalDigits number) :=
  all_written_of_digits (decimal_digits number).2

theorem integer_written (number : Int) : AllWritten (toString number).toList := by
  rw [Int.toString_eq_repr, Int.repr_eq_if]
  split
  · rw [Nat.toList_repr]
    exact decimal_digits_written _
  · rw [String.toList_append, Nat.toList_repr, all_written_append]
    exact ⟨all_written_cons.mpr ⟨rfl, all_written_nil⟩, decimal_digits_written _⟩

theorem written_out_written (decimal : Decimal) : AllWritten (writtenOut decimal) := by
  have digits := decimal_digits_written decimal.digits
  unfold writtenOut
  dsimp only
  split
  · exact all_written_append.mpr ⟨digits, all_written_replicate rfl _⟩
  · split
    · rw [all_written_append, all_written_cons]
      exact ⟨digits.take _, rfl, digits.drop _⟩
    · rw [all_written_append, all_written_cons, all_written_cons]
      exact ⟨⟨rfl, rfl, all_written_replicate rfl _⟩, digits⟩

theorem with_exponent_written (decimal : Decimal) : AllWritten (withExponent decimal) := by
  have digits := decimal_digits_written decimal.digits
  rw [withExponent, all_written_append, all_written_append, all_written_cons]
  refine ⟨⟨digits.take _, ?_⟩, rfl, integer_written _⟩
  split
  · exact all_written_nil
  · exact all_written_cons.mpr ⟨rfl, digits.drop _⟩

theorem magnitude_written (significand : Nat) (exponent : Int) :
    AllWritten (magnitudeText significand exponent) := by
  have point : AllWritten ['.', '0'] := List.all_eq_true.mp rfl
  unfold magnitudeText
  split
  · exact all_written_cons.mpr ⟨rfl, point⟩
  · split
    · exact with_exponent_written _
    · split
      · exact all_written_append.mpr ⟨decimal_digits_written _, point⟩
      · exact written_out_written _

theorem sign_written (negative : Bool) : AllWritten (signText negative) := by
  cases negative with
  | false => exact all_written_nil
  | true => exact all_written_cons.mpr ⟨rfl, all_written_nil⟩

theorem binary_written (number : Binary) : AllWritten number.text := by
  cases number with
  | nan => exact List.all_eq_true.mp rfl
  | infinite negative =>
      exact all_written_append.mpr ⟨sign_written negative, List.all_eq_true.mp rfl⟩
  | finite negative significand exponent =>
      exact all_written_append.mpr ⟨sign_written negative, magnitude_written significand exponent⟩

end Number

namespace Value

theorem text_written (value : Value) : Number.AllWritten value.text.toList := by
  cases value with
  | int number => exact Number.integer_written number.toInt
  | num number =>
      rw [text, Number.text, String.toList_ofList]
      exact Number.binary_written _

/-- The text of a value is a piece of one line. -/
theorem no_newline_in_text (value : Value) : '\n' ∉ value.text.toList := by
  intro member
  cases value.text_written '\n' member

end Value

end Reckon
