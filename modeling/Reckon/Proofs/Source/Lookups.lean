import Reckon.Proofs.Source.Lines

/-!
The line table against a plain scan of the text. The line of an offset is counted in the newline
bytes before it, inside a character too; the column of a place between two characters is counted
from the newline before it; later places have later positions; and the texts of the lines are the
pieces of the source text between its newlines.
-/

namespace Reckon

namespace Text

/-- The bytes of a text in UTF-8. -/
def bytes (text : List Char) : List UInt8 := text.flatMap String.utf8EncodeChar

def newlineByte : UInt8 := 10

/-- An offset between two characters of a text, or at one of its ends. -/
def IsBoundary (text : List Char) (offset : Nat) : Prop :=
  ∃ before after, text = before ++ after ∧ byteSize before = offset

/-- A boundary whose line and column are numbers of 32 bits. -/
def IsCounted (text : List Char) (offset : Nat) : Prop :=
  ∃ before after, text = before ++ after ∧ byteSize before = offset ∧ (positionAfter before).Fits

/-- The text of a line, counted from one: a piece of the source text between newlines, without one
carriage return at its end. -/
def IsLine (source : List Char) (line : Nat) (shown : List Char) : Prop :=
  ∃ index piece, line = index + 1 ∧ (source.splitOn '\n')[index]? = some piece ∧
    (piece = shown ++ ['\r'] ∨ piece = shown ∧ piece.getLast? ≠ some '\r')

theorem bytes_append (first second : List Char) :
    bytes (first ++ second) = bytes first ++ bytes second := List.flatMap_append

theorem bytes_cons (char : Char) (text : List Char) :
    bytes (char :: text) = String.utf8EncodeChar char ++ bytes text := List.flatMap_cons

theorem bytes_length (text : List Char) : (bytes text).length = byteSize text := by
  induction text with
  | nil => rfl
  | cons char text induction =>
      rw [bytes_cons, List.length_append, String.length_utf8EncodeChar, induction, byte_size_cons]

theorem bytes_of_string (source : String) :
    bytes source.toList = source.toByteArray.data.toList := by
  rw [← String.utf8Encode_toList, List.utf8Encode, bytes, List.data_toByteArray]

theorem byte_size_of_string (source : String) : byteSize source.toList = source.utf8ByteSize := by
  rw [← bytes_length, bytes_of_string, Array.length_toList]
  rfl

/-- A byte with a bit that the newline byte lacks is another byte. -/
theorem marked_byte_differs (byte : UInt8) {mark : UInt8}
    (differs : newlineByte ||| mark ≠ newlineByte) : newlineByte ≠ byte ||| mark := by
  intro same
  exact differs (by rw [same, UInt8.or_assoc, UInt8.or_self])

/-- Only the newline has the newline byte: every byte of a longer character has its highest bit
set. -/
theorem newline_byte_of_char {char : Char}
    (member : newlineByte ∈ String.utf8EncodeChar char) : char = '\n' := by
  have follows (byte : UInt8) : newlineByte ≠ byte ||| 0x80 := marked_byte_differs byte (by decide)
  have leads (byte : UInt8) : newlineByte ≠ byte ||| 0xc0 ∧ newlineByte ≠ byte ||| 0xe0 ∧
      newlineByte ≠ byte ||| 0xf0 :=
    ⟨marked_byte_differs byte (by decide), marked_byte_differs byte (by decide),
      marked_byte_differs byte (by decide)⟩
  rcases char.utf8Size_eq with one | two | three | four
  · have small := UInt32.le_iff_toNat_le.mp (Char.utf8Size_eq_one_iff.mp one)
    rw [String.utf8EncodeChar_eq_singleton one, List.mem_singleton] at member
    have code := congrArg UInt8.toNat member
    rw [UInt32.toNat_toUInt8, Nat.mod_eq_of_lt (Nat.lt_of_le_of_lt small (by decide))] at code
    exact Char.ext (UInt32.toNat_inj.mp code.symm)
  · simp [String.utf8EncodeChar_eq_cons_cons two, follows, leads] at member
  · simp [String.utf8EncodeChar_eq_cons_cons_cons three, follows, leads] at member
  · simp [String.utf8EncodeChar_eq_cons_cons_cons_cons four, follows, leads] at member

theorem count_newline_bytes (text : List Char) :
    (bytes text).count newlineByte = text.count '\n' := by
  induction text with
  | nil => rfl
  | cons char text induction =>
      rw [bytes_cons, List.count_append, induction, List.count_cons]
      by_cases newline : char = '\n'
      · subst newline
        exact Nat.add_comm _ _
      · have none : (String.utf8EncodeChar char).count newlineByte = 0 :=
          List.count_eq_zero.mpr (mt newline_byte_of_char newline)
        simp [none, newline]

/-- How far an offset goes into a text: the characters that end by it, and the next one, if any,
does not. -/
theorem reached (text : List Char) (offset : Nat) : ∃ before after,
    text = before ++ after ∧ byteSize before ≤ offset ∧
      ∀ char rest, after = char :: rest → offset < byteSize before + char.utf8Size := by
  induction text generalizing offset with
  | nil =>
      refine ⟨[], [], rfl, Nat.zero_le offset, ?_⟩
      intro char rest some
      exact absurd some.symm (List.cons_ne_nil char rest)
  | cons first text induction =>
      by_cases fits : first.utf8Size ≤ offset
      · obtain ⟨before, after, rfl, below, beyond⟩ := induction (offset - first.utf8Size)
        refine ⟨first :: before, after, rfl, ?_, ?_⟩
        · rw [byte_size_cons]
          omega
        · intro char rest some
          have next := beyond char rest some
          rw [byte_size_cons]
          omega
      · refine ⟨[], first :: text, rfl, Nat.zero_le offset, ?_⟩
        intro char rest some
        obtain ⟨rfl, rfl⟩ := List.cons.inj some
        rw [byte_size_nil]
        omega

/-- The bytes of a text that an offset cuts off in its first character hold no newline. -/
theorem no_newline_in_part {text : List Char} {part : Nat}
    (inside : ∀ char rest, text = char :: rest → part < char.utf8Size) :
    ((bytes text).take part).count newlineByte = 0 := by
  cases text with
  | nil => rw [bytes, List.flatMap_nil, List.take_nil, List.count_nil]
  | cons char rest =>
      have short := inside char rest rfl
      rw [bytes_cons, List.take_append_of_le_length
        (by rw [String.length_utf8EncodeChar]; exact Nat.le_of_lt short)]
      apply List.count_eq_zero.mpr
      intro member
      obtain rfl := newline_byte_of_char (List.mem_of_mem_take member)
      obtain rfl : part = 0 := Nat.lt_one_iff.mp short
      cases member

theorem IsCounted.boundary {text : List Char} {offset : Nat} (counted : IsCounted text offset) :
    IsBoundary text offset := by
  obtain ⟨before, after, whole, size, _⟩ := counted
  exact ⟨before, after, whole, size⟩

end Text

namespace Position

theorem order_eq_lt_iff {left right : Position} : left.order right = .lt ↔
    left.line < right.line ∨ left.line = right.line ∧ left.column < right.column := by
  rw [order, Ordering.then_eq_lt, Nat.compare_eq_lt, Nat.compare_eq_eq, Nat.compare_eq_lt]

theorem order_trans {first second third : Position} (earlier : first.order second = .lt)
    (later : second.order third = .lt) : first.order third = .lt := by
  rw [order_eq_lt_iff] at *
  omega

theorem order_self (position : Position) : position.order position ≠ .lt := by
  rw [ne_eq, order_eq_lt_iff]
  omega

end Position

namespace Text

/-- A character leads to a later position. -/
theorem position_after_snoc (text : List Char) (char : Char) :
    (positionAfter text).order (positionAfter (text ++ [char])) = .lt := by
  rw [Position.order_eq_lt_iff]
  by_cases newline : char = '\n'
  · simp [positionAfter, newline]
  · simp [positionAfter, newline]

theorem position_after_append (text : List Char) {more : List Char} (some : more ≠ []) :
    (positionAfter text).order (positionAfter (text ++ more)) = .lt := by
  induction more using List.reverseRecOn with
  | nil => exact absurd rfl some
  | append_singleton more char induction =>
      rw [← List.append_assoc]
      by_cases first : more = []
      · rw [first, List.append_nil]
        exact position_after_snoc text char
      · exact Position.order_trans (induction first) (position_after_snoc (text ++ more) char)

end Text

namespace Lines

/-- If an offset does not get behind the first character, no line starts by it. -/
theorem newline_ends_beyond {size offset : Nat} {text : List Char}
    (inside : ∀ char rest, text = char :: rest → offset < size + char.utf8Size) :
    ∀ next ∈ newlineEnds size text, offset < next := by
  intro next member
  cases text with
  | nil => cases member
  | cons char rest =>
      have first := inside char rest rfl
      have later : next ∈ newlineEnds (size + char.utf8Size) rest → offset < next :=
        fun member => Nat.lt_trans first (newline_ends_within member).1
      rw [newlineEnds] at member
      split at member
      case isTrue =>
        rcases List.mem_cons.mp member with rfl | member
        · exact first
        · exact later member
      case isFalse => exact later member

/-- The line of any offset is counted in the newline bytes before it. -/
theorem line_at_of_text {text : List Char} (within : Text.byteSize text ≤ Span.maxOffset)
    (offset : Nat) : (ofText text).lineAt offset =
      Position.ordinal (((Text.bytes text).take offset).count Text.newlineByte) := by
  obtain ⟨before, after, rfl, below, inside⟩ := Text.reached text offset
  have cut : ∀ char rest, after = char :: rest →
      offset - Text.byteSize before < char.utf8Size := by
    intro char rest some
    have first := inside char rest some
    omega
  have beyond : ∀ next ∈ newlineEnds (Text.byteSize before) after,
      offset < min next Span.maxOffset := by
    intro next member
    have later := newline_ends_beyond inside next member
    have bounds := newline_ends_within member
    rw [Text.byte_size_append] at within
    omega
  rw [line_at_parts below beyond, Text.bytes_append, List.take_append,
    List.take_of_length_le (by rw [Text.bytes_length]; exact below), List.count_append,
    Text.count_newline_bytes, Text.bytes_length, Text.no_newline_in_part cut, Nat.add_zero]

/-- An offset past the text is looked up as the end of the text. -/
theorem line_at_min {text : List Char} (within : Text.byteSize text ≤ Span.maxOffset)
    (offset : Nat) :
    (ofText text).lineAt (min offset (Text.byteSize text)) = (ofText text).lineAt offset := by
  rw [line_at_of_text within, line_at_of_text within, ← Text.bytes_length, ← List.take_eq_take_min]

theorem position_min {text : List Char} (within : Text.byteSize text ≤ Span.maxOffset)
    (offset : Nat) :
    (ofText text).position (min offset (Text.byteSize text)) = (ofText text).position offset := by
  rw [position, position, line_at_min within, size_of_text, Nat.min_assoc, Nat.min_self]

/-- The text of a line that stands between two newlines, or between these and the ends of the text,
if the line is not the last that 32 bits can number. -/
theorem line_text_of_parts {before piece after : List Char}
    (within : Text.byteSize (before ++ piece ++ after) ≤ Span.maxOffset)
    (numbered : before.count '\n' + 1 < Span.maxOffset)
    (starts : Text.earlierLines before = before) (oneLine : '\n' ∉ piece)
    (ends : after = [] ∨ ∃ rest, after = '\n' :: rest) :
    (ofText (before ++ piece ++ after)).lineText? (before.count '\n' + 1) =
      some (dropReturn piece) := by
  have start : (ofText (before ++ piece ++ after)).lineStart? (before.count '\n' + 1) =
      some (Text.byteSize before) := by
    rw [Text.byte_size_append, Text.byte_size_append] at within
    rw [List.append_assoc, line_start_of_text (by omega), starts]
  have stop : (((ofText (before ++ piece ++ after)).lineStart? (before.count '\n' + 1 + 1)).map
      (· - 1)).getD (ofText (before ++ piece ++ after)).size =
      Text.byteSize before + Text.byteSize piece := by
    rcases ends with rfl | ⟨rest, rfl⟩
    · have last :
          (ofText (before ++ piece ++ [])).lineStart? (before.count '\n' + 1 + 1) = none := by
        rw [lineStart?, starts_of_text, List.getElem?_toArray]
        apply List.getElem?_eq_none
        rw [List.length_map, List.length_cons, newline_ends_length, List.append_nil,
          List.count_append, List.count_eq_zero.mpr oneLine]
      rw [last, List.append_nil, size_of_text, Text.byte_size_append]
      rfl
    · have next := @line_start_of_text (before ++ piece ++ ['\n']) (by
        rw [Text.byte_size_append, Text.byte_size_cons] at within
        rw [Text.byte_size_append, Text.byte_size_cons, Text.byte_size_nil]
        omega) rest
      have newlines : (before ++ piece ++ ['\n']).count '\n' = before.count '\n' + 1 := by
        simp [List.count_eq_zero.mpr oneLine]
      rw [newlines, Text.earlier_lines_snoc, if_pos rfl, List.append_assoc _ ['\n'],
        List.singleton_append] at next
      rw [next, Text.byte_size_append, Text.byte_size_append]
      rfl
  have slice := Text.slice_append before piece after
  rw [lineText?, start, Position.ordinal_of_lt numbered, stop, text_of_text]
  simp only [Option.bind_eq_bind, Option.bind_some, slice, Option.map_some]

/-- The pieces between the newlines of a text, each with the text around it. -/
theorem split_on_newline {text piece : List Char} {index : Nat}
    (found : (text.splitOn '\n')[index]? = some piece) : ∃ before after,
    text = before ++ piece ++ after ∧ before.count '\n' = index ∧
      Text.earlierLines before = before ∧ '\n' ∉ piece ∧
      (after = [] ∨ ∃ rest, after = '\n' :: rest) := by
  induction index generalizing text with
  | zero =>
      by_cases more : '\n' ∈ text
      · obtain ⟨line, rest, rfl, oneLine⟩ := List.eq_append_cons_of_mem more
        rw [List.splitOn_append_cons_self_of_not_mem oneLine] at found
        obtain rfl := Option.some.inj found
        exact ⟨[], '\n' :: rest, rfl, rfl, rfl, oneLine, .inr ⟨rest, rfl⟩⟩
      · rw [List.splitOn_eq_singleton more] at found
        obtain rfl := Option.some.inj found
        exact ⟨[], [], (List.append_nil _).symm, rfl, rfl, more, .inl rfl⟩
  | succ index induction =>
      by_cases more : '\n' ∈ text
      · obtain ⟨line, rest, rfl, oneLine⟩ := List.eq_append_cons_of_mem more
        rw [List.splitOn_append_cons_self_of_not_mem oneLine, List.getElem?_cons_succ] at found
        obtain ⟨before, after, rfl, count, starts, piece, ends⟩ := induction found
        refine ⟨line ++ '\n' :: before, after, by simp, ?_, ?_, piece, ends⟩
        · simp [List.count_eq_zero.mpr oneLine, count]
        · rw [Text.earlier_lines_behind, starts]
      · rw [List.splitOn_eq_singleton more] at found
        cases found

theorem split_on_newline_length (text : List Char) :
    (text.splitOn '\n').length = text.count '\n' + 1 := by
  induction text with
  | nil => rfl
  | cons char text induction =>
      rw [List.splitOn_cons_eq_if_modifyHead, List.count_cons]
      split
      · rw [List.length_cons, induction]
      · rw [List.length_modifyHead, induction, Nat.add_zero]

theorem count_of_text (text : List Char) : (ofText text).count = text.count '\n' + 1 := by
  rw [count, starts_of_text, List.size_toArray, List.length_map, List.length_cons,
    newline_ends_length]

theorem position_increasing {text : List Char} (within : Text.byteSize text ≤ Span.maxOffset)
    {first second : Nat} (here : Text.IsBoundary text first) (there : Text.IsCounted text second)
    (before : first < second) :
    ((ofText text).position first).order ((ofText text).position second) = .lt := by
  obtain ⟨front, back, rfl, rfl⟩ := here
  obtain ⟨others, rest, split, rfl, fits⟩ := there
  obtain ⟨middle, rfl⟩ := Text.beginning_of_byte_size split (Nat.le_of_lt before)
  have some : middle ≠ [] := by
    rintro rfl
    rw [List.append_nil] at before
    exact Nat.lt_irrefl _ before
  rw [split] at within ⊢
  have early : Text.byteSize front < Span.maxOffset := by
    rw [Text.byte_size_append (front ++ middle)] at within
    omega
  rw [position_of_text within fits, List.append_assoc, position_of_lt early]
  exact Text.position_after_append front some

theorem position_injective {text : List Char} (within : Text.byteSize text ≤ Span.maxOffset)
    {first second : Nat} (here : Text.IsCounted text first) (there : Text.IsCounted text second)
    (same : (ofText text).position first = (ofText text).position second) : first = second := by
  rcases Nat.lt_trichotomy first second with before | same | behind
  · have order := position_increasing within here.boundary there before
    rw [same] at order
    exact absurd order (Position.order_self _)
  · exact same
  · have order := position_increasing within there.boundary here behind
    rw [same] at order
    exact absurd order (Position.order_self _)

theorem drop_return_cases (piece : List Char) :
    piece = dropReturn piece ++ ['\r'] ∨
      piece = dropReturn piece ∧ piece.getLast? ≠ some '\r' := by
  rw [dropReturn]
  split
  case isTrue ends =>
      obtain ⟨text, rfl⟩ := List.getLast?_eq_some_iff.mp ends
      exact .inl (by rw [List.dropLast_concat])
  case isFalse plain => exact .inr ⟨rfl, plain⟩

theorem line_text_of_text {text : List Char} (within : Text.byteSize text ≤ Span.maxOffset)
    {line : Nat} (first : 1 ≤ line) (last : line ≤ (ofText text).count)
    (numbered : line < Span.maxOffset) :
    ∃ shown, (ofText text).lineText? line = some shown ∧ Text.IsLine text line shown := by
  obtain ⟨index, rfl⟩ : ∃ index, line = index + 1 := ⟨line - 1, by omega⟩
  have among : index < (text.splitOn '\n').length := by
    rw [split_on_newline_length, ← count_of_text]
    omega
  have found := List.getElem?_eq_getElem among
  obtain ⟨before, after, whole, rfl, starts, oneLine, ends⟩ := split_on_newline found
  rw [whole] at within
  have shown := line_text_of_parts within numbered starts oneLine ends
  rw [← whole] at shown
  exact ⟨_, shown, _, _, rfl, found, drop_return_cases _⟩

theorem no_line_text {text : List Char} {line : Nat}
    (outside : line = 0 ∨ (ofText text).count < line) : (ofText text).lineText? line = none := by
  have nowhere : (ofText text).lineStart? line = none := by
    rcases outside with rfl | beyond
    · rfl
    · obtain ⟨index, rfl⟩ : ∃ index, line = index + 1 := ⟨line - 1, by omega⟩
      exact Array.getElem?_eq_none (Nat.le_of_lt_succ beyond)
  rw [lineText?, nowhere]
  rfl

/-- The column of a place between two characters is counted from the start of its line. -/
theorem position_of_counted {text : List Char} (within : Text.byteSize text ≤ Span.maxOffset)
    {offset : Nat} (counted : Text.IsCounted text (min offset (Text.byteSize text))) :
    ∃ earlier onLine after, text = earlier ++ onLine ++ after ∧
      Text.byteSize (earlier ++ onLine) = min offset (Text.byteSize text) ∧
      (earlier = [] ∨ earlier.getLast? = some '\n') ∧ '\n' ∉ onLine ∧
      (ofText text).lineStart? ((ofText text).lineAt offset) = some (Text.byteSize earlier) ∧
      (ofText text).position offset = ⟨(ofText text).lineAt offset, onLine.length + 1⟩ := by
  obtain ⟨before, after, rfl, here, fits⟩ := counted
  have position := position_of_text within fits
  have line : (ofText (before ++ after)).lineAt (Text.byteSize before) = before.count '\n' + 1 :=
    congrArg Position.line position
  rw [here, position_min within] at position
  rw [here, line_at_min within] at line
  have inside : Text.byteSize before ≤ Span.maxOffset := by
    rw [Text.byte_size_append] at within
    omega
  refine ⟨Text.earlierLines before, Text.lastLine before, after, ?_, ?_,
    Text.earlier_lines_end before, Text.newline_not_in_last_line before, ?_, ?_⟩
  · rw [Text.earlier_lines_append_last_line]
  · rw [Text.earlier_lines_append_last_line, here]
  · rw [line, line_start_of_text inside]
  · rw [position, line, Text.position_after_eq]

/-- Every boundary before the last offset of 32 bits is counted. -/
theorem counted_of_lt {text : List Char} {offset : Nat} (boundary : Text.IsBoundary text offset)
    (early : offset < Span.maxOffset) : Text.IsCounted text offset := by
  obtain ⟨before, after, rfl, rfl⟩ := boundary
  exact ⟨before, after, rfl, rfl, fits_of_lt early⟩

/-- The table of a text says what a plain scan of the text says, where the numbers of the scan have
32 bits. Only the last offset of 32 bits can have others, and only at the end of the text. -/
structure IsScanOf (lines : Lines) (source : String) : Prop where
  /-- The line of any offset is one more than the newline bytes before it or, past the end, before
  the end. -/
  line_at : ∀ offset, (source.toByteArray.data.toList.take (min offset source.utf8ByteSize)).count
    Text.newlineByte < Span.maxOffset → lines.lineAt offset =
      (source.toByteArray.data.toList.take (min offset source.utf8ByteSize)).count
        Text.newlineByte + 1
  /-- The column is one more than the characters between the start of the line and the offset. -/
  position : ∀ offset, Text.IsCounted source.toList (min offset source.utf8ByteSize) →
    ∃ earlier onLine after, source.toList = earlier ++ onLine ++ after ∧
      Text.byteSize (earlier ++ onLine) = min offset source.utf8ByteSize ∧
      (earlier = [] ∨ earlier.getLast? = some '\n') ∧ '\n' ∉ onLine ∧
      lines.lineStart? (lines.lineAt offset) = some (Text.byteSize earlier) ∧
      lines.position offset = ⟨lines.lineAt offset, onLine.length + 1⟩
  counted : ∀ offset, Text.IsBoundary source.toList offset → offset < Span.maxOffset →
    Text.IsCounted source.toList offset
  /-- A later offset has a later position. -/
  increasing : ∀ first second, Text.IsBoundary source.toList first →
    Text.IsCounted source.toList second → first < second →
      (lines.position first).order (lines.position second) = .lt
  /-- A position belongs to one offset. -/
  injective : ∀ first second, Text.IsCounted source.toList first →
    Text.IsCounted source.toList second → lines.position first = lines.position second →
      first = second
  /-- There are as many lines as the newlines cut pieces from the text. -/
  count : lines.count = (source.toList.splitOn '\n').length
  line_text : ∀ line, 1 ≤ line → line ≤ lines.count → line < Span.maxOffset →
    ∃ shown, lines.lineText? line = some shown ∧ Text.IsLine source.toList line shown
  /-- No other number is that of a line. -/
  no_line_text : ∀ line, line = 0 ∨ lines.count < line → lines.lineText? line = none

theorem is_scan_of_string (source : String) (within : source.utf8ByteSize ≤ Span.maxOffset) :
    (ofString source).IsScanOf source := by
  have size : Text.byteSize source.toList ≤ Span.maxOffset := by
    rwa [Text.byte_size_of_string]
  exact
    { line_at := by
        intro offset fits
        rw [ofString, ← line_at_min size, line_at_of_text size, Text.bytes_of_string,
          Text.byte_size_of_string, Position.ordinal_of_lt fits]
      position := by
        intro offset counted
        rw [← Text.byte_size_of_string] at counted ⊢
        exact position_of_counted size counted
      counted := fun offset => counted_of_lt
      increasing := fun first second here there before =>
        position_increasing size here there before
      injective := fun first second here there same => position_injective size here there same
      count := by rw [ofString, count_of_text, split_on_newline_length]
      line_text := fun line first last numbered => line_text_of_text size first last numbered
      no_line_text := fun line outside => no_line_text outside }

/-- Between the newlines of a text with a longer character and a line that ends in a carriage
return, and past its last line. -/
theorem scan_of_short_lines :
    let source := "é\r\n\nb"
    Text.IsBoundary source.toList 4 ∧ Text.IsCounted source.toList 5 ∧
      ((ofString source).position 4).order ((ofString source).position 5) = .lt ∧
      (∃ shown, (ofString source).lineText? 1 = some shown ∧ Text.IsLine source.toList 1 shown) ∧
      (ofString source).lineText? 4294967295 = none := by
  intro source
  have scan := is_scan_of_string source (by decide)
  have here : Text.IsBoundary source.toList 4 := ⟨['é', '\r', '\n'], ['\n', 'b'], by decide, rfl⟩
  have there : Text.IsCounted source.toList 5 :=
    scan.counted 5 ⟨['é', '\r', '\n', '\n'], ['b'], by decide, rfl⟩ (by decide)
  have count : (ofString source).count = 3 := by decide
  refine ⟨here, there, scan.increasing 4 5 here there (by decide),
    scan.line_text 1 (Nat.le_refl 1) ?_ (by decide), scan.no_line_text 4294967295 (.inr ?_)⟩
  · rw [count]
    decide
  · rw [count]
    decide

/-- The column at the end of a line of as many bytes as spans reach over would need one more bit. -/
theorem position_ending_longest_line {text : List Char} (oneLine : '\n' ∉ text)
    (length : text.length = Span.maxOffset) (size : Text.byteSize text = Span.maxOffset) :
    (ofText text).position Span.maxOffset = ⟨1, 0⟩ := by
  have within : Text.byteSize (text ++ []) ≤ Span.maxOffset := by
    rw [List.append_nil, size]
  have none := List.count_eq_zero.mpr oneLine
  have parts := position_of_parts (starts_beyond within) (Nat.le_of_eq size)
    (by rw [none]; decide)
  rwa [List.append_nil, size, none, Text.last_line_of_one oneLine, length] at parts

theorem position_starting_text (text : List Char) : (ofText text).position 0 = ⟨1, 1⟩ :=
  @position_of_lt [] (by decide) text

/-- A line of as many letters as spans reach over. -/
def longestLine : String := String.ofList (List.replicate Span.maxOffset 'a')

theorem longest_line_size : Text.byteSize longestLine.toList = Span.maxOffset := by
  rw [longestLine, String.toList_ofList, Text.byte_size_replicate]
  rfl

theorem longest_line_ending : (ofString longestLine).position Span.maxOffset = ⟨1, 0⟩ := by
  have chars : longestLine.toList = List.replicate Span.maxOffset 'a' := String.toList_ofList
  refine position_ending_longest_line ?_ (by rw [chars, List.length_replicate]) longest_line_size
  rw [chars]
  intro member
  exact absurd (List.eq_of_mem_replicate member) (by decide)

/-- The end of the longest line has the column zero, before the column at the start of the line. -/
theorem longest_line_ends_in_column_zero :
    longestLine.utf8ByteSize ≤ Span.maxOffset ∧
      Text.IsBoundary longestLine.toList 0 ∧ Text.IsBoundary longestLine.toList Span.maxOffset ∧
      (ofString longestLine).position 0 = ⟨1, 1⟩ ∧
      (ofString longestLine).position Span.maxOffset = ⟨1, 0⟩ ∧
      ((ofString longestLine).position 0).order
        ((ofString longestLine).position Span.maxOffset) = .gt := by
  have start : (ofString longestLine).position 0 = ⟨1, 1⟩ := position_starting_text _
  refine ⟨by rw [← Text.byte_size_of_string, longest_line_size],
    ⟨[], longestLine.toList, (List.nil_append _).symm, rfl⟩,
    ⟨longestLine.toList, [], (List.append_nil _).symm, longest_line_size⟩, start,
    longest_line_ending, ?_⟩
  rw [start, longest_line_ending]
  rfl

end Lines

end Reckon
