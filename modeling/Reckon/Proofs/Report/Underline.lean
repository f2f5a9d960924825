import Reckon.Proofs.Source.Lookups
import Reckon.Report

/-!
What a shown report points at. The block of a label is an excerpt of the source: the position of
the label, the line it starts in and a line of markers. The markers stand under the labelled text
up to its first newline, however many bytes its characters, and digits the number of the line, have.
-/

namespace Reckon

namespace Text

/-- The part of a labelled text that is shown with the line it starts in: what comes before its
first newline, without a carriage return that ends the line. -/
def shownPart (labelled after : List Char) : List Char :=
  let further := firstLine (laterLines labelled ++ after)
  if further = [] then Lines.dropReturn (firstLine labelled) else firstLine labelled

theorem trim_end_append {kept : Char} (visible : isBlank kept = false) (before after : List Char) :
    trimEnd (before ++ kept :: after) = before ++ kept :: trimEnd after := by
  have stops : (kept :: before.reverse).dropWhile isBlank = kept :: before.reverse :=
    List.dropWhile_cons_of_neg (by rw [visible]; exact Bool.false_ne_true)
  have turned : (before ++ kept :: after).reverse = after.reverse ++ kept :: before.reverse := by
    simp
  rw [trimEnd, trimEnd, turned, List.dropWhile_append, stops]
  split
  case isTrue none => simp [List.isEmpty_iff.mp none]
  case isFalse => simp

example : trimEnd "a b \t\u00a0\u3000".toList = "a b".toList := by decide

theorem trim_end_blank (text : List Char) :
    trimEnd (' ' :: text) = [] ∨ (trimEnd (' ' :: text)).head? = some ' ' := by
  have beginning : trimEnd (' ' :: text) <+: ' ' :: text := by
    rw [trimEnd, ← List.reverse_suffix, List.reverse_reverse]
    exact List.dropWhile_suffix _
  rcases List.prefix_cons_iff.mp beginning with none | ⟨rest, some, _⟩
  · exact .inl none
  · exact .inr (by rw [some, List.head?_cons])

/-- A span between characters cuts the text into what is before it, in it and after it. -/
theorem parts_of_boundaries {text : List Char} {start stop : Nat} (starts : IsBoundary text start)
    (stops : IsBoundary text stop) (ordered : start ≤ stop) : ∃ before labelled after,
    text = before ++ labelled ++ after ∧ start = byteSize before ∧
      stop = byteSize (before ++ labelled) := by
  obtain ⟨before, rest, rfl, rfl⟩ := starts
  obtain ⟨front, after, split, rfl⟩ := stops
  obtain ⟨labelled, rfl⟩ := beginning_of_byte_size split ordered
  exact ⟨before, labelled, after, split, rfl, rfl⟩

end Text

namespace Lines

theorem drop_return_append (first : List Char) {second : List Char} (some : second ≠ []) :
    dropReturn (first ++ second) = first ++ dropReturn second := by
  rw [dropReturn, dropReturn, List.getLast?_append, Option.or_of_isSome (by simp [some])]
  split
  · exact List.dropLast_append_of_ne_nil some
  · rfl

theorem drop_return_length (text : List Char) :
    (dropReturn text).length ≤ text.length ∧ text.length ≤ (dropReturn text).length + 1 := by
  rcases drop_return_cases text with ends | ⟨plain, _⟩
  · have length := congrArg List.length ends
    rw [List.length_append, List.length_singleton] at length
    omega
  · have length := congrArg List.length plain
    omega

/-- The line in which a label starts is shown from its start to its end, without a carriage
return. -/
theorem line_text_of_label {before labelled after : List Char}
    (within : Text.byteSize (before ++ labelled ++ after) ≤ Span.maxOffset)
    (numbered : before.count '\n' + 1 < Span.maxOffset) :
    (ofText (before ++ labelled ++ after)).lineText? (before.count '\n' + 1) =
      some (dropReturn (Text.lastLine before ++ Text.firstLine labelled ++
        Text.firstLine (Text.laterLines labelled ++ after))) := by
  have whole : before ++ labelled ++ after = Text.earlierLines before ++
      (Text.lastLine before ++ Text.firstLine labelled ++
        Text.firstLine (Text.laterLines labelled ++ after)) ++
      Text.laterLines (Text.laterLines labelled ++ after) := by
    calc before ++ labelled ++ after
        = (Text.earlierLines before ++ Text.lastLine before) ++
          (Text.firstLine labelled ++ Text.laterLines labelled) ++ after := by
          rw [Text.earlier_lines_append_last_line, Text.first_line_append_later_lines]
      _ = Text.earlierLines before ++ Text.lastLine before ++ Text.firstLine labelled ++
          (Text.laterLines labelled ++ after) := by simp only [List.append_assoc]
      _ = Text.earlierLines before ++ Text.lastLine before ++ Text.firstLine labelled ++
          (Text.firstLine (Text.laterLines labelled ++ after) ++
            Text.laterLines (Text.laterLines labelled ++ after)) := by
          rw [Text.first_line_append_later_lines]
      _ = _ := by simp only [List.append_assoc]
  have oneLine : '\n' ∉ Text.lastLine before ++ Text.firstLine labelled ++
      Text.firstLine (Text.laterLines labelled ++ after) := by
    simp [Text.newline_not_in_last_line, Text.newline_not_in_first_line]
  rw [← Text.count_earlier_lines before] at numbered ⊢
  rw [whole] at within ⊢
  exact line_text_of_parts within numbered (Text.earlier_lines_idem before) oneLine
    (Text.later_lines_start _)

end Lines

namespace Text

variable {labelled after : List Char}

/-- As many characters as the label has on its first line, from its start on, are the shown part of
it. -/
theorem shown_part_above (onLine : List Char) (some : shownPart labelled after ≠ []) :
    ((Lines.dropReturn (onLine ++ firstLine labelled ++
      firstLine (laterLines labelled ++ after))).drop onLine.length).take
        (max 1 (firstLine labelled).length) = shownPart labelled after := by
  rw [shownPart] at some ⊢
  by_cases ends : firstLine (laterLines labelled ++ after) = []
  · rw [if_pos ends] at some ⊢
    have labelledSome : firstLine labelled ≠ [] := by
      intro none
      exact some (by rw [none]; rfl)
    have length := (Lines.drop_return_length (firstLine labelled)).1
    rw [ends, List.append_nil, Lines.drop_return_append onLine labelledSome, List.drop_left,
      List.take_of_length_le (Nat.le_trans length (Nat.le_max_right _ _))]
  · rw [if_neg ends] at some ⊢
    have width : max 1 (firstLine labelled).length = (firstLine labelled).length :=
      Nat.max_eq_right (List.length_pos_iff.mpr some)
    rw [Lines.drop_return_append _ ends, List.append_assoc, List.drop_left, width, List.take_left]

theorem width_of_nothing (none : shownPart labelled after = []) :
    max 1 (firstLine labelled).length = 1 := by
  have short : (firstLine labelled).length ≤ 1 := by
    rw [shownPart] at none
    by_cases ends : firstLine (laterLines labelled ++ after) = []
    · rw [if_pos ends] at none
      have length := (Lines.drop_return_length (firstLine labelled)).2
      rwa [none] at length
    · rw [if_neg ends] at none
      rw [none]
      exact Nat.zero_le 1
  exact Nat.max_eq_left short

end Text

namespace Report

/-- A piece of a shown report that points at a place in the source: the position of the place, the
text of its line, and markers with a remark behind them. -/
structure Excerpt where
  position : Position
  lineText : List Char
  marker : Char
  width : Nat
  remark : List Char

namespace Excerpt

variable (excerpt : Excerpt)

def number : List Char := (toString excerpt.position.line).toList

def margin : List Char := List.replicate excerpt.number.length ' '

def sourceLine : List Char := excerpt.number ++ " | ".toList ++ excerpt.lineText

/-- What stands to the left of the markers. -/
def indent : List Char :=
  excerpt.margin ++ " | ".toList ++ List.replicate (excerpt.position.column - 1) ' '

def markerLine : List Char :=
  excerpt.indent ++ List.replicate excerpt.width excerpt.marker ++ excerpt.remark

def lines : List (List Char) :=
  [excerpt.margin ++ "--> ".toList ++ excerpt.position.text.toList,
    excerpt.margin ++ " |".toList, excerpt.sourceLine, excerpt.markerLine]

/-- The excerpt points at a part of the source that stands between two others. -/
structure Marks (before labelled after : List Char) : Prop where
  position : excerpt.position = Text.positionAfter before
  line : Text.IsLine (before ++ labelled ++ after) excerpt.position.line excerpt.lineText
  width : excerpt.width = max 1 (Text.firstLine labelled).length
  /-- The characters above the markers are those of the label. -/
  above : Text.shownPart labelled after ≠ [] →
    (excerpt.sourceLine.drop excerpt.indent.length).take excerpt.width =
      Text.shownPart labelled after
  single : Text.shownPart labelled after = [] → excerpt.width = 1
  remark : excerpt.remark = [] ∨ excerpt.remark.head? = some ' '
  bars : excerpt.sourceLine.idxOf '|' = excerpt.markerLine.idxOf '|'

theorem margin_length : excerpt.margin.length = excerpt.number.length := List.length_replicate

/-- Where the markers start, the line is shown from the column that the excerpt names. -/
theorem line_text_above_markers :
    excerpt.sourceLine.drop excerpt.indent.length =
      excerpt.lineText.drop (excerpt.position.column - 1) := by
  have length : excerpt.indent.length =
      (excerpt.number ++ " | ".toList).length + (excerpt.position.column - 1) := by
    rw [indent, List.length_append, List.length_append, List.length_append, margin_length,
      List.length_replicate]
  rw [sourceLine, length, List.drop_length_add_append]

theorem no_bar_in_number : '|' ∉ excerpt.number := by
  intro member
  rw [number, Nat.toString_eq_repr, Nat.toList_repr] at member
  exact absurd (Nat.isDigit_of_mem_toDigits (by decide) (by decide) member) (by decide)

theorem no_bar_in_margin : '|' ∉ excerpt.margin := by
  intro member
  exact absurd (List.eq_of_mem_replicate member) (by decide)

/-- The bar beside the line and the one beside the markers stand in the same column. -/
theorem bars_aligned : excerpt.sourceLine.idxOf '|' = excerpt.markerLine.idxOf '|' := by
  have first (left right : List Char) (none : '|' ∉ left) :
      (left ++ " | ".toList ++ right).idxOf '|' = left.length + 1 := by
    rw [List.append_assoc, List.idxOf_append, if_neg none, Nat.add_comm]
    rfl
  rw [sourceLine, markerLine, indent, first _ _ excerpt.no_bar_in_number, List.append_assoc,
    List.append_assoc, first _ _ excerpt.no_bar_in_margin, margin_length]

end Excerpt

/-- The excerpt of the source that a label on a part of it asks for. -/
def excerptOf (label : Label) (before labelled after : List Char) : Excerpt where
  position := Text.positionAfter before
  lineText := Lines.dropReturn (Text.lastLine before ++ Text.firstLine labelled ++
    Text.firstLine (Text.laterLines labelled ++ after))
  marker := label.marker
  width := max 1 (Text.firstLine labelled).length
  remark := Text.trimEnd (' ' :: label.message.toList)

section Block

variable {label : Label} {before labelled after : List Char}

theorem marker_visible (label : Label) : Text.isBlank label.marker = false := by
  rw [Label.marker]
  split <;> decide

theorem underline_width (span : label.span =
    ⟨Text.byteSize before, Text.byteSize before + Text.byteSize labelled⟩) :
    underlineWidth (.ofText (before ++ labelled ++ after)) label =
      max 1 (Text.firstLine labelled).length := by
  rw [underlineWidth, span, Lines.text_of_text, Text.slice_append]
  rfl

theorem markers_before_remark (indent remark : List Char) (label : Label) {width : Nat}
    (some : 0 < width) :
    Text.trimEnd (indent ++ List.replicate width label.marker ++ remark) =
      indent ++ List.replicate width label.marker ++ Text.trimEnd remark := by
  obtain ⟨fewer, rfl⟩ : ∃ fewer, width = fewer + 1 := ⟨width - 1, by omega⟩
  have visible := Text.trim_end_append (marker_visible label)
    (indent ++ List.replicate fewer label.marker) remark
  simpa [List.replicate_succ'] using visible

/-- The block of a label is the excerpt that it asks for. -/
theorem block_eq (within : Text.byteSize (before ++ labelled ++ after) ≤ Span.maxOffset)
    (fits : (Text.positionAfter before).Fits)
    (numbered : (Text.positionAfter before).line < Span.maxOffset)
    (span : label.span =
      ⟨Text.byteSize before, Text.byteSize before + Text.byteSize labelled⟩) :
    block (.ofText (before ++ labelled ++ after)) label =
      (excerptOf label before labelled after).lines := by
  have position : (Lines.ofText (before ++ labelled ++ after)).position label.span.start =
      Text.positionAfter before := by
    rw [List.append_assoc] at within ⊢
    rw [span, Lines.position_of_text within fits]
  have line : (Lines.ofText (before ++ labelled ++ after)).lineText?
      (Text.positionAfter before).line = some (excerptOf label before labelled after).lineText :=
    Lines.line_text_of_label within numbered
  have markers := markers_before_remark (excerptOf label before labelled after).indent
    (' ' :: label.message.toList) label (Nat.le_max_left 1 (Text.firstLine labelled).length)
  have bar (left : List Char) : left ++ " |".toList ++ [' '] = left ++ " | ".toList := by simp
  rw [← List.singleton_append, ← List.append_assoc] at markers
  rw [block, position, line, underline_width span, bar, bar,
    ← List.append_assoc (_ ++ " | ".toList)]
  simp only [Excerpt.lines, List.cons.injEq, and_true]
  exact ⟨rfl, rfl, rfl, markers⟩

theorem excerpt_marks (within : Text.byteSize (before ++ labelled ++ after) ≤ Span.maxOffset)
    (numbered : (Text.positionAfter before).line < Span.maxOffset) :
    (excerptOf label before labelled after).Marks before labelled after where
  position := rfl
  line := by
    have newlines : before.count '\n' ≤ (before ++ labelled ++ after).count '\n' := by
      simp only [List.append_assoc, List.count_append, Nat.le_add_right]
    have last : before.count '\n' + 1 ≤ (Lines.ofText (before ++ labelled ++ after)).count := by
      rw [Lines.count_of_text]
      exact Nat.succ_le_succ newlines
    obtain ⟨shown, found, isLine⟩ :=
      Lines.line_text_of_text within (Nat.le_add_left 1 _) last numbered
    rw [Lines.line_text_of_label within numbered] at found
    rwa [← Option.some.inj found] at isLine
  width := rfl
  above := by
    rw [Excerpt.line_text_above_markers]
    intro some
    have column : (excerptOf label before labelled after).position.column - 1 =
        (Text.lastLine before).length := by
      rw [excerptOf, Text.position_after_eq, Nat.add_sub_cancel]
    rw [column]
    exact Text.shown_part_above (Text.lastLine before) some
  single := Text.width_of_nothing
  remark := Text.trim_end_blank _
  bars := Excerpt.bars_aligned _

end Block

/-- The report with no more than some of its labels. -/
def withOnly (report : Report) (labels : List Label) : Report :=
  { report with labels := labels, notes := [] }

/-- The excerpts of a shown report follow its heading, one for each label. -/
theorem render_up_to_label {report : Report} {source : String} {previous next : List Label}
    {label : Label} (labels : report.labels = previous ++ label :: next) :
    ∃ back, (report.render source).toList =
      ((report.withOnly previous).render source).toList ++
        (block (.ofString source) label).flatMap (· ++ ['\n']) ++ back := by
  refine ⟨((next.flatMap (block (.ofString source)) ++ report.notes.map noteLine).flatMap
    (· ++ ['\n'])), ?_⟩
  simp [render, lines, labels, heading, withOnly]

/-- Wherever a label stands in the source, the report shows an excerpt that marks its text, as long
as the line and the column of the label, and the number of the next line, have 32 bits. -/
theorem render_marks_label {report : Report} {source : String} {previous next : List Label}
    {label : Label} (labels : report.labels = previous ++ label :: next)
    (within : source.utf8ByteSize ≤ Span.maxOffset)
    (starts : Text.IsCounted source.toList label.span.start)
    (numbered : (Lines.ofString source).lineAt label.span.start < Span.maxOffset)
    (stops : Text.IsBoundary source.toList label.span.stop)
    (ordered : label.span.start ≤ label.span.stop) :
    ∃ before labelled after, ∃ excerpt : Excerpt, ∃ back,
      source.toList = before ++ labelled ++ after ∧
      label.span = ⟨Text.byteSize before, Text.byteSize (before ++ labelled)⟩ ∧
      excerpt.Marks before labelled after ∧ excerpt.marker = label.marker ∧
      (report.render source).toList =
        ((report.withOnly previous).render source).toList ++
          excerpt.lines.flatMap (· ++ ['\n']) ++ back := by
  obtain ⟨before, labelled, after, whole, span⟩ :=
    Text.parts_of_boundaries starts.boundary stops ordered
  have spanEq : label.span =
      ⟨Text.byteSize before, Text.byteSize before + Text.byteSize labelled⟩ := by
    rw [← Text.byte_size_append, ← span.1, ← span.2]
  rw [← Text.byte_size_of_string, whole] at within
  have fits : (Text.positionAfter before).Fits := by
    obtain ⟨others, rest, split, size, fits⟩ := starts
    rw [whole, List.append_assoc] at split
    rwa [Text.eq_of_byte_size split (by rw [size, span.1])]
  have line :
      (Lines.ofString source).lineAt label.span.start = (Text.positionAfter before).line := by
    rw [List.append_assoc] at within
    rw [Lines.ofString, whole, span.1, List.append_assoc, ← Lines.position_of_text within fits]
    rfl
  rw [line] at numbered
  obtain ⟨back, shown⟩ := render_up_to_label labels
  rw [Lines.ofString, whole, block_eq within fits numbered spanEq] at shown
  exact ⟨before, labelled, after, excerptOf label before labelled after, back, whole,
    by rw [← span.1, ← span.2], excerpt_marks within numbered, rfl, shown⟩

/-- A label that starts in the tenth line, behind a longer character, and ends in the next. -/
theorem marks_label_across_lines :
    let source := "\n\n\n\n\n\n\n\n\né a\r\nb"
    let label : Label := ⟨⟨12, 16⟩, "here", true⟩
    let report : Report := ⟨.undefinedVariable, "no value", [label], []⟩
    report.labels = [] ++ label :: [] ∧ source.utf8ByteSize ≤ Span.maxOffset ∧
      Text.IsCounted source.toList label.span.start ∧
      (Lines.ofString source).lineAt label.span.start < Span.maxOffset ∧
      Text.IsBoundary source.toList label.span.stop ∧ label.span.start ≤ label.span.stop ∧
      ∃ before labelled after, ∃ excerpt : Excerpt, ∃ back,
        source.toList = before ++ labelled ++ after ∧
        label.span = ⟨Text.byteSize before, Text.byteSize (before ++ labelled)⟩ ∧
        excerpt.Marks before labelled after ∧ excerpt.marker = label.marker ∧
        (report.render source).toList = ((report.withOnly []).render source).toList ++
          excerpt.lines.flatMap (· ++ ['\n']) ++ back := by
  intro source label report
  have within : source.utf8ByteSize ≤ Span.maxOffset := by decide
  have starts : Text.IsCounted source.toList label.span.start :=
    Lines.counted_of_lt ⟨"\n\n\n\n\n\n\n\n\né ".toList, "a\r\nb".toList, by decide, by decide⟩
      (by decide)
  have numbered : (Lines.ofString source).lineAt label.span.start < Span.maxOffset := by
    decide +kernel
  have stops : Text.IsBoundary source.toList label.span.stop :=
    ⟨source.toList, [], by decide, by decide⟩
  exact ⟨rfl, within, starts, numbered, stops, by decide,
    render_marks_label rfl within starts numbered stops (by decide)⟩

example : (Report.mk .undefinedVariable "no value" [⟨⟨12, 16⟩, "here", true⟩] []).render
    "\n\n\n\n\n\n\n\n\né a\r\nb" =
      "error[E2001]: no value\n  --> line 10, col 3\n   |\n10 | é a\n   |   ^^ here\n" := by
  decide +kernel

/-- A column zero is shown as such, and its marker as in the first column. -/
theorem block_in_column_zero {lines : Lines} {label : Label}
    (position : lines.position label.span.start = ⟨1, 0⟩) (width : underlineWidth lines label = 1) :
    (block lines label)[0]? = some " --> line 1, col 0".toList ∧
      (block lines label)[3]? =
        some (Text.trimEnd ("  | ".toList ++ [label.marker, ' '] ++ label.message.toList)) := by
  rw [block, position, width]
  exact ⟨rfl, rfl⟩

/-- A label behind the longest line is said to be in the column zero, and its marker stands under
the first letter. -/
theorem label_behind_longest_line_is_misplaced :
    let label : Label := ⟨.point Span.maxOffset, "here", true⟩
    Lines.longestLine.utf8ByteSize ≤ Span.maxOffset ∧
      Text.IsBoundary Lines.longestLine.toList label.span.start ∧
      (block (.ofString Lines.longestLine) label)[0]? = some " --> line 1, col 0".toList ∧
      (block (.ofString Lines.longestLine) label)[3]? = some "  | ^ here".toList := by
  intro label
  have size := Lines.longest_line_size
  have ends := Lines.longest_line_ending
  have width : underlineWidth (.ofString Lines.longestLine) label = 1 := by
    have span : label.span =
        ⟨Text.byteSize Lines.longestLine.toList,
          Text.byteSize Lines.longestLine.toList + Text.byteSize []⟩ := by
      rw [size]
      rfl
    have width := @underline_width label _ _ [] span
    rwa [List.append_nil, List.append_nil] at width
  obtain ⟨place, markers⟩ := @block_in_column_zero (.ofString Lines.longestLine) label ends width
  refine ⟨by rw [← Text.byte_size_of_string, size],
    ⟨Lines.longestLine.toList, [], (List.append_nil _).symm, size⟩, place, markers.trans ?_⟩
  decide

end Report

end Reckon
