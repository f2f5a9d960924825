import Mathlib.Data.List.Induction
import Mathlib.Data.List.TakeWhile

/-!
A text at its first newline and at its last one. No newline stands before the first or behind the
last, and the last one ends the line it stands in.
-/

namespace Reckon.Text

/-- A text up to its first newline. -/
def firstLine (text : List Char) : List Char := text.takeWhile (· != '\n')

/-- A text from its first newline on. -/
def laterLines (text : List Char) : List Char := text.dropWhile (· != '\n')

theorem first_line_append_later_lines (text : List Char) :
    firstLine text ++ laterLines text = text := List.takeWhile_append_dropWhile

theorem newline_not_in_first_line (text : List Char) : '\n' ∉ firstLine text := by
  intro member
  exact absurd (List.mem_takeWhile_imp member) (by decide)

theorem later_lines_start (text : List Char) :
    laterLines text = [] ∨ ∃ rest, laterLines text = '\n' :: rest := by
  induction text with
  | nil => exact .inl rfl
  | cons char text induction =>
      by_cases newline : char = '\n'
      · exact .inr ⟨text, by simp [laterLines, newline]⟩
      · have passed : laterLines (char :: text) = laterLines text := by simp [laterLines, newline]
        rwa [passed]

/-- A text up to its last newline. -/
def earlierLines (text : List Char) : List Char := (text.reverse.dropWhile (· != '\n')).reverse

/-- What stands behind the last newline of a text. -/
def lastLine (text : List Char) : List Char := (text.reverse.takeWhile (· != '\n')).reverse

theorem earlier_lines_append_last_line (text : List Char) :
    earlierLines text ++ lastLine text = text := by
  rw [earlierLines, lastLine, ← List.reverse_append, List.takeWhile_append_dropWhile,
    List.reverse_reverse]

theorem earlier_lines_snoc (text : List Char) (char : Char) :
    earlierLines (text ++ [char]) = if char = '\n' then text ++ [char] else earlierLines text := by
  rw [earlierLines, List.reverse_append, List.reverse_singleton, List.singleton_append]
  by_cases newline : char = '\n'
  · simp [newline]
  · simp [newline, earlierLines]

theorem newline_not_in_last_line (text : List Char) : '\n' ∉ lastLine text := by
  intro member
  have kept := List.mem_takeWhile_imp (List.mem_reverse.mp member)
  exact absurd kept (by decide)

theorem last_line_of_one {text : List Char} (oneLine : '\n' ∉ text) : lastLine text = text := by
  have all : ∀ char ∈ text.reverse, (char != '\n') = true := fun char member =>
    bne_iff_ne.mpr fun newline => oneLine (newline ▸ List.mem_reverse.mp member)
  rw [lastLine, List.takeWhile_eq_self_iff.mpr all, List.reverse_reverse]

/-- What precedes the last line of a text is nothing or ends in a newline. -/
theorem earlier_lines_end (text : List Char) :
    earlierLines text = [] ∨ (earlierLines text).getLast? = some '\n' := by
  induction text using List.reverseRecOn with
  | nil => exact .inl rfl
  | append_singleton text char induction =>
      rw [earlier_lines_snoc]
      split
      case isTrue newline => exact .inr (by rw [newline, List.getLast?_concat])
      case isFalse => exact induction

theorem earlier_lines_idem (text : List Char) :
    earlierLines (earlierLines text) = earlierLines text := by
  induction text using List.reverseRecOn with
  | nil => rfl
  | append_singleton text char induction =>
      rw [earlier_lines_snoc]
      split
      case isTrue newline => rw [earlier_lines_snoc, if_pos newline]
      case isFalse => exact induction

theorem count_earlier_lines (text : List Char) :
    (earlierLines text).count '\n' = text.count '\n' := by
  conv => rhs; rw [← earlier_lines_append_last_line text]
  rw [List.count_append, List.count_eq_zero.mpr (newline_not_in_last_line text), Nat.add_zero]

theorem earlier_lines_behind (before after : List Char) :
    earlierLines (before ++ '\n' :: after) = before ++ '\n' :: earlierLines after := by
  induction after using List.reverseRecOn with
  | nil => rw [earlier_lines_snoc, if_pos rfl]; rfl
  | append_singleton after char induction =>
      have regrouped : before ++ '\n' :: (after ++ [char]) =
          (before ++ '\n' :: after) ++ [char] := by
        simp
      rw [regrouped, earlier_lines_snoc, earlier_lines_snoc, induction, ← regrouped]
      split <;> rfl

end Reckon.Text
