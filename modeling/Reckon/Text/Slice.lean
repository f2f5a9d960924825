/-!
Pieces of a text named by byte offsets. An offset inside a character names no piece.
-/

namespace Reckon.Text

/-- The number of bytes that the characters take in UTF-8. -/
def byteSize (chars : List Char) : Nat := chars.foldl (· + ·.utf8Size) 0

/-- The text after so many bytes, if they end between two characters. -/
def dropBytes? : Nat → List Char → Option (List Char)
  | 0, chars => some chars
  | _ + 1, [] => none
  | bytes + 1, char :: chars =>
      if char.utf8Size ≤ bytes + 1 then dropBytes? (bytes + 1 - char.utf8Size) chars else none

/-- The number of characters that so many bytes hold, added to a count already made. -/
def countWithin? (counted : Nat) : Nat → List Char → Option Nat
  | 0, _ => some counted
  | _ + 1, [] => none
  | bytes + 1, char :: chars =>
      if char.utf8Size ≤ bytes + 1 then
        countWithin? (counted + 1) (bytes + 1 - char.utf8Size) chars
      else none

/-- The text between two byte offsets, if both stand between characters in that order. -/
def slice? (start stop : Nat) (chars : List Char) : Option (List Char) :=
  if start ≤ stop then do
    let rest ← dropBytes? start chars
    let count ← countWithin? 0 (stop - start) rest
    some (rest.take count)
  else none

theorem byte_size_from (size : Nat) (chars : List Char) :
    chars.foldl (· + ·.utf8Size) size = size + byteSize chars := by
  unfold byteSize
  induction chars generalizing size with
  | nil => simp
  | cons char chars induction =>
      simp only [List.foldl_cons, Nat.zero_add]
      rw [induction (size + char.utf8Size), induction char.utf8Size]
      omega

@[simp] theorem byte_size_nil : byteSize [] = 0 := rfl

@[simp] theorem byte_size_cons (char : Char) (chars : List Char) :
    byteSize (char :: chars) = char.utf8Size + byteSize chars := by
  rw [byteSize, List.foldl_cons, Nat.zero_add, byte_size_from]

theorem byte_size_append (first second : List Char) :
    byteSize (first ++ second) = byteSize first + byteSize second := by
  rw [byteSize, List.foldl_append, byte_size_from, ← byteSize]

theorem drop_bytes_append (first second : List Char) :
    dropBytes? (byteSize first) (first ++ second) = some second := by
  induction first with
  | nil => cases second <;> rfl
  | cons char first induction =>
      have positive := char.utf8Size_pos
      obtain ⟨size, same⟩ : ∃ size, byteSize (char :: first) = size + 1 :=
        ⟨char.utf8Size - 1 + byteSize first, by rw [byte_size_cons]; omega⟩
      have rest : size + 1 - char.utf8Size = byteSize first := by
        rw [← same, byte_size_cons]; omega
      have fits : char.utf8Size ≤ size + 1 := by rw [← same, byte_size_cons]; omega
      rw [same, List.cons_append, dropBytes?, if_pos fits, rest, induction]

theorem count_within_append (counted : Nat) (first second : List Char) :
    countWithin? counted (byteSize first) (first ++ second) = some (counted + first.length) := by
  induction first generalizing counted with
  | nil => cases second <;> rfl
  | cons char first induction =>
      have positive := char.utf8Size_pos
      obtain ⟨size, same⟩ : ∃ size, byteSize (char :: first) = size + 1 :=
        ⟨char.utf8Size - 1 + byteSize first, by rw [byte_size_cons]; omega⟩
      have rest : size + 1 - char.utf8Size = byteSize first := by
        rw [← same, byte_size_cons]; omega
      have fits : char.utf8Size ≤ size + 1 := by rw [← same, byte_size_cons]; omega
      rw [same, List.cons_append, countWithin?, if_pos fits, rest, induction, List.length_cons]
      congr 1
      omega

/-- The bytes of a middle part name exactly that part. -/
theorem slice_append (before middle after : List Char) :
    slice? (byteSize before) (byteSize before + byteSize middle) (before ++ middle ++ after) =
      some middle := by
  have size : byteSize before + byteSize middle - byteSize before = byteSize middle := by omega
  simp only [slice?, Nat.le_add_right, if_true, List.append_assoc, drop_bytes_append, size,
    Option.bind_eq_bind, Option.bind_some, count_within_append, Nat.zero_add, List.take_left]

end Reckon.Text
