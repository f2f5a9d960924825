import Reckon.Text.Quoted

/-!
Quoted texts can be read back. A character in quotes tells by itself where it ends, and none begins
like the quote that closes the text. So a quoted text is told apart from every other one, whatever
stands behind it.
-/

namespace Reckon.Text

def hexValue (digit : Char) : Nat :=
  if digit.toNat < 'a'.toNat then digit.toNat - '0'.toNat else digit.toNat - 'a'.toNat + 10

/-- The number that hexadecimal digits stand for. -/
def readHex (digits : List Char) : Nat :=
  digits.foldl (fun value digit => 16 * value + hexValue digit) 0

/-- The character that is written behind a backslash. -/
def behindBackslash? : List Char → Option Char
  | [] => none
  | letter :: rest =>
      if letter = '0' then some '\x00'
      else if letter = 't' then some '\t'
      else if letter = 'r' then some '\r'
      else if letter = 'n' then some '\n'
      else if letter = 'u' then
        some (Char.ofNat (readHex ((rest.drop 1).takeWhile (· != '\x7d'))))
      else some letter

/-- The character that is written first in a text. -/
def firstWritten? : List Char → Option Char
  | [] => none
  | first :: rest => if first = '\\' then behindBackslash? rest else some first

theorem hex_value_digit {digit : Nat} (below : digit < 16) :
    hexValue digit.digitChar = digit ∧ digit.digitChar ≠ '\x7d' := by
  revert digit
  decide

/-- Hexadecimal digits give back the number, and none of them is a brace. -/
theorem hex_digits (number : Nat) :
    readHex (Nat.toDigits 16 number) = number ∧
      ∀ digit ∈ Nat.toDigits 16 number, digit ≠ '\x7d' := by
  induction number using Nat.strongRecOn with
  | ind number induction =>
      rw [Nat.toDigits_eq_if (by decide)]
      split
      · next small =>
          obtain ⟨value, other⟩ := hex_value_digit small
          refine ⟨?_, ?_⟩
          · rw [readHex, List.foldl_cons, List.foldl_nil, value, Nat.mul_zero, Nat.zero_add]
          · intro digit member
            rw [List.mem_singleton.mp member]
            exact other
      · next large =>
          have smaller : number / 16 < number := by omega
          obtain ⟨value, others⟩ := induction (number / 16) smaller
          obtain ⟨lastValue, lastOther⟩ := hex_value_digit (Nat.mod_lt number (by decide))
          refine ⟨?_, ?_⟩
          · rw [readHex] at value
            rw [readHex, List.foldl_append, value, List.foldl_cons, List.foldl_nil, lastValue]
            exact Nat.div_add_mod number 16
          · intro digit member
            rcases List.mem_append.mp member with early | last
            · exact others digit early
            · rw [List.mem_singleton.mp last]
              exact lastOther

theorem behind_backslash_code_point (char : Char) (rest : List Char) :
    behindBackslash? ('u' :: '\x7b' :: (Nat.toDigits 16 char.toNat ++ ['\x7d']) ++ rest) =
      some char := by
  obtain ⟨value, others⟩ := hex_digits char.toNat
  have inside : (Nat.toDigits 16 char.toNat ++ '\x7d' :: rest).takeWhile (· != '\x7d') =
      Nat.toDigits 16 char.toNat := by
    rw [List.takeWhile_append_of_pos fun digit member => bne_iff_ne.mpr (others digit member)]
    simp
  have read : behindBackslash? ('u' :: '\x7b' :: (Nat.toDigits 16 char.toNat ++ ['\x7d']) ++ rest) =
      some (Char.ofNat (readHex
        ((Nat.toDigits 16 char.toNat ++ '\x7d' :: rest).takeWhile (· != '\x7d')))) := by
    simp [behindBackslash?]
  rw [read, inside, value, Char.ofNat_toNat]

/-- Inside double quotes a character stands behind a backslash in a way that can be read back, or it
is written as it is, and then it is neither a backslash nor a double quote. -/
theorem escape_cases (char : Char) :
    (∃ code, escape '"' char = '\\' :: code ∧
      ∀ rest, behindBackslash? (code ++ rest) = some char) ∨
    (escape '"' char = [char] ∧ char ≠ '\\' ∧ char ≠ '"') := by
  unfold escape
  split
  · next null => exact .inl ⟨_, rfl, fun _ => null ▸ rfl⟩
  split
  · next tab => exact .inl ⟨_, rfl, fun _ => tab ▸ rfl⟩
  split
  · next carriage => exact .inl ⟨_, rfl, fun _ => carriage ▸ rfl⟩
  split
  · next newline => exact .inl ⟨_, rfl, fun _ => newline ▸ rfl⟩
  split
  · next marked =>
      refine .inl ⟨_, rfl, ?_⟩
      rcases marked with rfl | rfl <;> exact fun _ => rfl
  · next unmarked =>
      split
      · exact .inr ⟨rfl, fun backslash => unmarked (.inl backslash),
          fun quote => unmarked (.inr quote)⟩
      · exact .inl ⟨_, rfl, behind_backslash_code_point char⟩

/-- Inside double quotes a character is read back, whatever stands behind it. -/
theorem first_written_escape (char : Char) (rest : List Char) :
    firstWritten? (escape '"' char ++ rest) = some char := by
  rcases escape_cases char with ⟨code, written, read⟩ | ⟨written, plain, _⟩
  · rw [written]
    exact read rest
  · rw [written]
    exact if_neg plain

/-- No character inside double quotes begins like the quote behind the last of them. -/
theorem escape_ne_quote (char : Char) (rest others : List Char) :
    escape '"' char ++ rest ≠ '"' :: others := by
  rcases escape_cases char with ⟨code, written, _⟩ | ⟨written, _, plain⟩
  · rw [written]
    simp
  · rw [written]
    simp [plain]

theorem escaped_behind {text other rest rest' : List Char}
    (same : text.flatMap (escape '"') ++ '"' :: rest = other.flatMap (escape '"') ++ '"' :: rest') :
    text = other ∧ rest = rest' := by
  induction text generalizing other with
  | nil =>
      cases other with
      | nil => exact ⟨rfl, List.tail_eq_of_cons_eq same⟩
      | cons char other =>
          rw [List.flatMap_cons, List.append_assoc] at same
          exact absurd same.symm (escape_ne_quote char _ _)
  | cons char text induction =>
      cases other with
      | nil =>
          rw [List.flatMap_cons, List.append_assoc] at same
          exact absurd same (escape_ne_quote char _ _)
      | cons char' other =>
          simp only [List.flatMap_cons, List.append_assoc] at same
          have first := congrArg firstWritten? same
          rw [first_written_escape, first_written_escape] at first
          cases first
          obtain ⟨rfl, behind⟩ := induction (List.append_cancel_left same)
          exact ⟨rfl, behind⟩

/-- Quoted texts that stand in front of something are the same only if the texts are, and then the
same stands behind them. -/
theorem quoted_behind {text other : String} {rest rest' : List Char}
    (same : (quoted text).toList ++ rest = (quoted other).toList ++ rest') :
    text = other ∧ rest = rest' := by
  simp only [quoted, String.toList_ofList, List.cons_append, List.append_assoc,
    List.cons.injEq, true_and] at same
  obtain ⟨texts, behind⟩ := escaped_behind same
  exact ⟨String.toList_inj.mp texts, behind⟩

end Reckon.Text
