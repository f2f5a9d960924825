import Reckon.Grammar.Parse
import Reckon.Proofs.Source.Lines
import Reckon.Proofs.Token.Tiling

/-!
Where a source does not scan. The error is that of the first place, reached over tokens and gaps, at
which neither a token nor a gap begins, and reading trees reports it whatever stands before it.
-/

namespace Reckon

namespace Scan

variable {source behind ahead : List Char} {found : List Token} {char : Char} {location : Location}

/-- Nothing is reached beyond where something is to blame. -/
theorem Reaches.before_blame {blamed other rest : List Char} {others : List Token}
    (reached : Reaches source behind ahead found) (blames : Blames ahead char blamed)
    (elsewhere : Reaches source other rest others) : other <+: behind := by
  have fails := reached.tokens_at_blame blames
  rcases elsewhere.onward with ⟨all, ended⟩ |
    ⟨further, left, all, second, piece, again, blamesAgain, before⟩
  · rw [ended.tokens_at_end] at fails
    cases fails
  · rw [again.tokens_at_blame blamesAgain] at fails
    have sizes : Text.byteSize further = Text.byteSize behind := by
      injection fails with fails
      injection fails with _ located
      exact congrArg (·.span.start) located
    rwa [Text.eq_of_byte_size (again.whole.symm.trans reached.whole) sizes] at before

/-- What is to blame is one character with all of its bytes, or everything from the opening of a
comment on, less a single sign that is the last character of the source. -/
theorem blames_iff (whole : source = behind ++ ahead) :
    (∃ blamed, Blames ahead char blamed ∧ location = .behind behind blamed) ↔
      location.position = Text.positionAfter behind ∧
      location.span.start = Text.byteSize behind ∧
      ((BeginsNothing char ∧ ahead.head? = some char ∧
          location.span.stop = Text.byteSize behind + char.utf8Size) ∨
        (char = '#' ∧ ∃ body, ahead = '#' :: '#' :: body ∧ ¬['#', '#'] <:+: body ∧
          location.span.stop =
            Text.byteSize source - if body.getLast? = some '#' then 1 else 0)) := by
  have single : Text.byteSize [char] = char.utf8Size := by simp
  rw [whole, Text.byte_size_append, ← single]
  constructor
  · rintro ⟨blamed, blames, rfl⟩
    refine ⟨rfl, rfl, ?_⟩
    cases blames with
    | char nothing => exact .inl ⟨nothing, rfl, rfl⟩
    | comment opened last =>
        refine .inr ⟨rfl, _, rfl, opened, ?_⟩
        rw [if_neg last]
        rfl
    | @commentSign body opened =>
        refine .inr ⟨rfl, body ++ ['#'], rfl, opened, ?_⟩
        rw [if_pos List.getLast?_concat, Text.byte_size_append]
        rfl
  · rintro ⟨position, start, there⟩
    have located {blamed : List Char}
        (stop : location.span.stop = Text.byteSize behind + Text.byteSize blamed) :
        location = .behind behind blamed := by
      obtain ⟨⟨first, last⟩, place⟩ := location
      cases position
      cases start
      cases stop
      rfl
    rcases there with ⟨nothing, first, stop⟩ | ⟨rfl, body, rfl, opened, stop⟩
    · obtain ⟨rest, rfl⟩ := List.head?_eq_some_iff.mp first
      exact ⟨[char], .char nothing, located stop⟩
    · by_cases last : body.getLast? = some '#'
      · obtain ⟨inner, rfl⟩ := List.getLast?_eq_some_iff.mp last
        rw [if_pos last] at stop
        refine ⟨_, .commentSign opened, located ?_⟩
        rw [stop, ← List.cons_append, ← List.cons_append, Text.byte_size_append]
        rfl
      · rw [if_neg last] at stop
        exact ⟨_, .comment opened last, located stop⟩

/-- The scan reaches the location over tokens and gaps and nothing beyond it. There, with all of its
bytes, is a character that begins neither; or a comment is opened and never closed, and the location
is everything from there on, less a single sign at the end of the source. -/
def BlamesFirst (source : List Char) (char : Char) (location : Location) : Prop :=
  ∃ behind ahead found, Reaches source behind ahead found ∧
    (∀ other rest others, Reaches source other rest others → other <+: behind) ∧
    location.position = Text.positionAfter behind ∧
    location.span.start = Text.byteSize behind ∧
    ((BeginsNothing char ∧ ahead.head? = some char ∧
        location.span.stop = Text.byteSize behind + char.utf8Size) ∨
      (char = '#' ∧ ∃ body, ahead = '#' :: '#' :: body ∧ ¬['#', '#'] <:+: body ∧
        location.span.stop =
          Text.byteSize source - if body.getLast? = some '#' then 1 else 0))

/-- Where no text is too large, the scan fails exactly with what it blames first. -/
theorem unbounded_fails_iff {source : String} :
    unboundedTokens source = .error (.unexpectedChar char location) ↔
      BlamesFirst source.toList char location := by
  constructor
  · intro fails
    rcases Reaches.start.onward with ⟨found, ended⟩ |
      ⟨behind, ahead, found, other, blamed, reached, blames, _⟩
    · rw [unboundedTokens, ended.tokens_at_end] at fails
      cases fails
    · rw [unboundedTokens, reached.tokens_at_blame blames] at fails
      cases fails
      exact ⟨behind, ahead, found, reached, fun _ _ _ => reached.before_blame blames,
        (blames_iff reached.whole).mp ⟨blamed, blames, rfl⟩⟩
  · rintro ⟨behind, ahead, found, reached, _, there⟩
    obtain ⟨blamed, blames, rfl⟩ := (blames_iff reached.whole).mpr there
    exact reached.tokens_at_blame blames

/-- What is to blame is a piece of the source. -/
theorem BlamesFirst.holds (blames : BlamesFirst source char location) :
    ∃ blamed, blamed ≠ [] ∧ location.Holds source blamed := by
  obtain ⟨behind, ahead, found, reached, _, there⟩ := blames
  obtain ⟨blamed, blames, rfl⟩ := (blames_iff reached.whole).mpr there
  obtain ⟨some, rest, rfl⟩ := blames.beginning
  exact ⟨blamed, some, behind, rest, by rw [reached.whole, List.append_assoc], rfl⟩

end Scan

/-- Scanning fails for a character exactly if it is the first to blame and spans reach to the end of
what is to blame; if they do not, the source is refused for its size. Reading trees reports the
character with its place, whatever the tokens before it are. -/
theorem scan_fails_at_first_blame (source : String) (char : Char) (location : Location) :
    (tokens source = .error (.unexpectedChar char location) ↔
      Scan.BlamesFirst source.toList char location ∧ location.span.stop ≤ Span.maxOffset) ∧
    (Scan.BlamesFirst source.toList char location → Span.maxOffset < location.span.stop →
      ∃ error, tokens source = .error (.sourceTooLarge error)) ∧
    (tokens source = .error (.unexpectedChar char location) →
      ∃ error, parse source = .error error ∧ error.code.text = "E0001" ∧
        error.location = location ∧
        error.message = s!"unexpected character {Text.quotedChar char}") := by
  refine ⟨?_, fun blames beyond => ?_, fun fails => ?_⟩
  · rw [tokens_eq_blamed_iff, Scan.unbounded_fails_iff]
  · refine tokens_of_beyond ?_
    rwa [Scan.unbounded_fails_iff.mpr blames]
  · obtain ⟨unbounded, fits⟩ := tokens_eq_blamed_iff.mp fails
    obtain ⟨blamed, some, holds⟩ := (Scan.unbounded_fails_iff.mp unbounded).holds
    have early : location.span.start < Span.maxOffset :=
      Nat.lt_of_lt_of_le (holds.start_lt_stop some) fits
    have kept : (ParseError.ofScanError (.unexpectedChar char location)).located
        (.ofString source) = .ofScanError (.unexpectedChar char location) :=
      ParseError.located_eq_self (holds.position_of_lt early)
    exact ⟨_, (parse_of_scan_error fails).trans (congrArg _ kept), rfl, rfl, rfl⟩

/-- A comment that is never closed is blamed although a parenthesis before it closes nothing, and
the sign at the end of the source is no part of it. -/
theorem unclosed_comment_fails_first :
    (∃ behind ahead found, Scan.Reaches "1 ) ##é#".toList behind ahead found ∧
      Text.byteSize behind = 4) ∧
    ∃ error, parse "1 ) ##é#" = .error error ∧ error.code.text = "E0001" ∧
      error.location = ⟨⟨4, 8⟩, ⟨1, 5⟩⟩ := by
  have fails : tokens "1 ) ##é#" = .error (.unexpectedChar '#' ⟨⟨4, 8⟩, ⟨1, 5⟩⟩) := by
    decide +kernel
  obtain ⟨first, _, reported⟩ := scan_fails_at_first_blame "1 ) ##é#" '#' ⟨⟨4, 8⟩, ⟨1, 5⟩⟩
  constructor
  · obtain ⟨⟨behind, ahead, found, reached, _, _, start, _⟩, _⟩ := first.mp fails
    exact ⟨behind, ahead, found, reached, start.symm⟩
  · obtain ⟨error, same, code, location, _⟩ := reported fails
    exact ⟨error, same, code, location⟩

/-- Blanks are no reason to blame less than the character behind them. -/
theorem Scan.blamed_behind_blanks {source : String} {gap : List Char} {char : Char}
    (blank : ∀ other ∈ gap, isBlank other = true) (nothing : BeginsNothing char)
    (chars : source.toList = gap ++ [char]) :
    ∃ location, location.span.stop = Text.byteSize gap + char.utf8Size ∧
      unboundedTokens source = .error (.unexpectedChar char location) := by
  rw [unboundedTokens, chars, unbounded_from_blanks _ _ _ blank,
    unbounded_from_blamed (leading_of_nothing nothing)]
  refine ⟨_, ?_, rfl⟩
  change ((Place.start.afterAll gap).afterAll [char]).offset = _
  rw [Place.after_all_offset, Place.after_all_offset, Text.byte_size_cons]
  change 0 + _ + _ = _
  rw [Nat.zero_add]
  rfl

/-- A character behind more blanks than spans reach over is the first to blame and is not blamed. -/
theorem far_character_is_not_blamed :
    ∃ location, Scan.BlamesFirst
        (String.ofList (List.replicate UInt32.size ' ' ++ ['@'])).toList '@' location ∧
      ∃ error, tokens (String.ofList (List.replicate UInt32.size ' ' ++ ['@'])) =
        .error (.sourceTooLarge error) := by
  have blank : ∀ char ∈ List.replicate UInt32.size ' ', Scan.isBlank char = true := by
    intro char member
    rw [List.eq_of_mem_replicate member]
    rfl
  have nothing : Scan.BeginsNothing '@' := Scan.begins_nothing_iff.mpr (by decide)
  obtain ⟨location, stop, fails⟩ := Scan.blamed_behind_blanks blank nothing String.toList_ofList
  refine ⟨location, Scan.unbounded_fails_iff.mp fails, tokens_of_beyond ?_⟩
  rw [fails]
  change _ < location.span.stop
  rw [stop, Text.byte_size_replicate]
  decide

end Reckon
