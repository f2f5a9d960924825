import Reckon.Proofs.Text.Lines
import Reckon.Proofs.Token.Places
import Reckon.Source.Lines

/-!
What the line table says of a place between two characters. The starts of the lines fall apart into
those up to the place and those behind it, and the search by halving finds how many the first are.
The last of these is where the line of the place starts. So the position of an offset is the one
that is counted in the text before it, as long as both of its numbers fit into 32 bits.
-/

namespace Reckon

/-- Both numbers fit into 32 bits. -/
structure Position.Fits (position : Position) : Prop where
  line : position.line < UInt32.size
  column : position.column < UInt32.size

namespace Text

theorem position_after_eq (text : List Char) :
    positionAfter text = ⟨text.count '\n' + 1, (lastLine text).length + 1⟩ := by
  rw [positionAfter, lastLine, List.length_reverse]

end Text

namespace Lines

theorem text_of_text (text : List Char) : (ofText text).text = text := rfl

theorem size_of_text (text : List Char) : (ofText text).size = Text.byteSize text := rfl

/-- The offsets right behind the newlines of a text that starts at an offset. -/
def newlineEnds (offset : Nat) : List Char → List Nat
  | [] => []
  | char :: chars =>
      let next := offset + char.utf8Size
      if char = '\n' then next :: newlineEnds next chars else newlineEnds next chars

theorem newline_ends_append (offset : Nat) (before after : List Char) :
    newlineEnds offset (before ++ after) =
      newlineEnds offset before ++ newlineEnds (offset + Text.byteSize before) after := by
  induction before generalizing offset with
  | nil => rfl
  | cons char before induction =>
      rw [Text.byte_size_cons, ← Nat.add_assoc]
      simp only [List.cons_append, newlineEnds, induction]
      split <;> rfl

theorem newline_ends_length (offset : Nat) (text : List Char) :
    (newlineEnds offset text).length = text.count '\n' := by
  induction text generalizing offset with
  | nil => rfl
  | cons char text induction =>
      simp only [newlineEnds, List.count_cons, beq_iff_eq]
      split
      · rw [List.length_cons, induction]
      · rw [induction, Nat.add_zero]

/-- A line starts behind its newline, and no later than the text ends. -/
theorem newline_ends_within {offset next : Nat} {text : List Char}
    (member : next ∈ newlineEnds offset text) :
    offset < next ∧ next ≤ offset + Text.byteSize text := by
  induction text generalizing offset with
  | nil => cases member
  | cons char text induction =>
      have positive := char.utf8Size_pos
      have later : next ∈ newlineEnds (offset + char.utf8Size) text →
          offset < next ∧ next ≤ offset + Text.byteSize (char :: text) := by
        intro member
        have bounds := induction member
        rw [Text.byte_size_cons]
        omega
      simp only [newlineEnds] at member
      split at member
      · rcases List.mem_cons.mp member with rfl | member
        · rw [Text.byte_size_cons]
          omega
        · exact later member
      · exact later member

theorem starts_from_eq (offset : Nat) (starts : Array Nat) (text : List Char) :
    startsFrom offset starts text =
      (starts.toList ++ (newlineEnds offset text).map (min · Span.maxOffset)).toArray := by
  induction text generalizing offset starts with
  | nil => simp [startsFrom, newlineEnds]
  | cons char text induction =>
      rw [startsFrom, induction, newlineEnds]
      split
      · simp
      · rfl

theorem starts_of_text (text : List Char) :
    (ofText text).starts =
      ((0 :: newlineEnds 0 text).map (min · Span.maxOffset)).toArray := starts_from_eq 0 #[0] text

/-- The last line of a text starts where the lines before it end. -/
theorem last_start (text : List Char) :
    (0 :: newlineEnds 0 text)[text.count '\n']? =
      some (Text.byteSize (Text.earlierLines text)) := by
  induction text using List.reverseRecOn with
  | nil => rfl
  | append_singleton text char induction =>
      have found := newline_ends_length 0 text
      rw [newline_ends_append, Nat.zero_add, Text.earlier_lines_snoc, List.count_append]
      by_cases newline : char = '\n'
      · subst newline
        simp [newlineEnds, found, Text.byte_size_append]
      · simpa [newlineEnds, newline] using induction

/-- The search by halving finds where offsets that are at most the bound are followed by offsets
beyond it. -/
theorem count_up_to_parts {front back : List Nat} {bound low high : Nat}
    (atMost : ∀ offset ∈ front, offset ≤ bound) (beyond : ∀ offset ∈ back, bound < offset)
    (above : low ≤ front.length) (below : front.length ≤ high)
    (inside : high ≤ (front ++ back).length) :
    countUpTo (front ++ back).toArray bound low high = front.length := by
  have parted : ∀ index, index < (front ++ back).length →
      ((front ++ back).toArray.getD index 0 ≤ bound ↔ index < front.length) := by
    intro index among
    rw [Array.getD_eq_getD_getElem?, List.getElem?_toArray]
    by_cases early : index < front.length
    · have member := atMost _ (List.getElem_mem early)
      simpa [List.getElem?_append_left early, List.getElem?_eq_getElem early, early] using member
    · have late : index - front.length < back.length := by
        rw [List.length_append] at among
        omega
      have member := beyond _ (List.getElem_mem late)
      simpa [List.getElem?_append_right (Nat.le_of_not_lt early),
        List.getElem?_eq_getElem late, early] using member
  fun_induction countUpTo (front ++ back).toArray bound low high with
  | case1 low high searching middle reached induction =>
      have early := (parted middle (by omega)).mp reached
      exact induction early below inside
  | case2 low high searching middle passed induction =>
      have late := mt (parted middle (by omega)).mpr passed
      exact induction above (Nat.le_of_not_lt late) (by omega)
  | case3 low high closed => omega

/-- An offset stands in the line whose start is the last that is not beyond it. -/
theorem line_at_parts {before after : List Char} {offset : Nat}
    (reached : Text.byteSize before ≤ offset)
    (beyond : ∀ next ∈ newlineEnds (Text.byteSize before) after,
      offset < min next Span.maxOffset) :
    (ofText (before ++ after)).lineAt offset = Position.ordinal (before.count '\n') := by
  have starts : (ofText (before ++ after)).starts =
      ((0 :: newlineEnds 0 before).map (min · Span.maxOffset) ++
        (newlineEnds (Text.byteSize before) after).map (min · Span.maxOffset)).toArray := by
    rw [starts_of_text, newline_ends_append, Nat.zero_add, ← List.map_append]
    rfl
  have atMost : ∀ start ∈ (0 :: newlineEnds 0 before).map (min · Span.maxOffset),
      start ≤ offset := by
    intro start member
    obtain ⟨next, among, rfl⟩ := List.mem_map.mp member
    refine Nat.le_trans (Nat.min_le_left _ _) ?_
    rcases List.mem_cons.mp among with rfl | among
    · exact Nat.zero_le offset
    · have bounds := newline_ends_within among
      omega
  have later : ∀ start ∈ (newlineEnds (Text.byteSize before) after).map (min · Span.maxOffset),
      offset < start := by
    intro start member
    obtain ⟨next, among, rfl⟩ := List.mem_map.mp member
    exact beyond next among
  rw [lineAt, count, starts, count_up_to_parts atMost later (Nat.zero_le _) (by simp) (by simp),
    List.length_map, List.length_cons, newline_ends_length, Nat.add_sub_cancel]

/-- The line that a text ends in starts behind the last newline of the text. -/
theorem line_start_of_text {before : List Char} (within : Text.byteSize before ≤ Span.maxOffset)
    (after : List Char) :
    (ofText (before ++ after)).lineStart? (before.count '\n' + 1) =
      some (Text.byteSize (Text.earlierLines before)) := by
  have inside : before.count '\n' < (0 :: newlineEnds 0 before).length := by
    rw [List.length_cons, newline_ends_length]
    exact Nat.lt_succ_self _
  have earlier := congrArg Text.byteSize (Text.earlier_lines_append_last_line before)
  rw [Text.byte_size_append] at earlier
  rw [lineStart?, starts_of_text, newline_ends_append, List.getElem?_toArray, ← List.cons_append,
    List.getElem?_map, List.getElem?_append_left inside, last_start, Option.map_some,
    Nat.min_eq_left (by omega)]

section

variable {before after : List Char}

/-- The column of an offset between two characters is counted from the start of its line. -/
theorem position_of_parts
    (starts : ∀ next ∈ newlineEnds (Text.byteSize before) after, Text.byteSize before <
      min next Span.maxOffset)
    (within : Text.byteSize before ≤ Span.maxOffset)
    (fits : before.count '\n' < Span.maxOffset) :
    (ofText (before ++ after)).position (Text.byteSize before) =
      ⟨before.count '\n' + 1, Position.ordinal (Text.lastLine before).length⟩ := by
  have line : (ofText (before ++ after)).lineAt (Text.byteSize before) = before.count '\n' + 1 := by
    rw [line_at_parts (Nat.le_refl _) starts, Position.ordinal_of_lt fits]
  have parts : Text.byteSize before =
      Text.byteSize (Text.earlierLines before) + Text.byteSize (Text.lastLine before) := by
    rw [← Text.byte_size_append, Text.earlier_lines_append_last_line]
  have stop : max (min (Text.byteSize before) (ofText (before ++ after)).size)
      (Text.byteSize (Text.earlierLines before)) =
      Text.byteSize (Text.earlierLines before) + Text.byteSize (Text.lastLine before) := by
    rw [size_of_text, Text.byte_size_append]
    omega
  have split : before ++ after = Text.earlierLines before ++ Text.lastLine before ++ after := by
    rw [Text.earlier_lines_append_last_line]
  rw [position, line, line_start_of_text within, Option.getD_some, stop, text_of_text, split,
    Text.slice_append, Option.map_some, Option.getD_some]

/-- Where the starts of later lines are told from the offset, its position is the one that is
counted in the text before it. -/
theorem position_of_fits
    (starts : ∀ next ∈ newlineEnds (Text.byteSize before) after, Text.byteSize before <
      min next Span.maxOffset)
    (within : Text.byteSize before ≤ Span.maxOffset) (fits : (Text.positionAfter before).Fits) :
    (ofText (before ++ after)).position (Text.byteSize before) = Text.positionAfter before := by
  rw [Text.position_after_eq] at fits ⊢
  rw [position_of_parts starts within (Nat.lt_pred_of_succ_lt fits.line),
    Position.ordinal_of_lt (Nat.lt_pred_of_succ_lt fits.column)]

/-- Both numbers fit where a span can hold one more character. -/
theorem fits_of_lt (early : Text.byteSize before < Span.maxOffset) :
    (Text.positionAfter before).Fits := by
  have newlines : before.count '\n' ≤ before.length := List.count_le_length
  have parts := congrArg List.length (Text.earlier_lines_append_last_line before)
  have length := Text.length_le_byte_size before
  rw [List.length_append] at parts
  rw [Span.maxOffset] at early
  rw [Text.position_after_eq]
  constructor <;> dsimp only <;> omega

theorem starts_beyond (within : Text.byteSize (before ++ after) ≤ Span.maxOffset) :
    ∀ next ∈ newlineEnds (Text.byteSize before) after, Text.byteSize before <
      min next Span.maxOffset := by
  intro next member
  have bounds := newline_ends_within member
  rw [Text.byte_size_append] at within
  omega

theorem position_of_text (within : Text.byteSize (before ++ after) ≤ Span.maxOffset)
    (fits : (Text.positionAfter before).Fits) :
    (ofText (before ++ after)).position (Text.byteSize before) = Text.positionAfter before := by
  refine position_of_fits (starts_beyond within) ?_ fits
  rw [Text.byte_size_append] at within
  omega

theorem position_of_lt (early : Text.byteSize before < Span.maxOffset) (after : List Char) :
    (ofText (before ++ after)).position (Text.byteSize before) = Text.positionAfter before := by
  refine position_of_fits (fun next member => ?_) (Nat.le_of_lt early) (fits_of_lt early)
  have bounds := newline_ends_within member
  omega

end

end Lines

namespace Location

variable {source : String} {location : Location} {text : List Char}

/-- The line table has the position of a piece of the source for the start of its span. -/
theorem Holds.position_eq (holds : location.Holds source.toList text)
    (within : Text.byteSize source.toList ≤ Span.maxOffset) (fits : location.position.Fits) :
    (Lines.ofString source).position location.span.start = location.position := by
  obtain ⟨before, after, whole, rfl⟩ := holds
  rw [whole, List.append_assoc] at within
  rw [Lines.ofString, whole, List.append_assoc]
  exact Lines.position_of_text within fits

theorem Holds.position_of_lt (holds : location.Holds source.toList text)
    (early : location.span.start < Span.maxOffset) :
    (Lines.ofString source).position location.span.start = location.position := by
  obtain ⟨before, after, whole, rfl⟩ := holds
  rw [Lines.ofString, whole, List.append_assoc]
  exact Lines.position_of_lt early _

end Location

end Reckon
