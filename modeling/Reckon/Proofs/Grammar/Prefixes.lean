import Reckon.Proofs.Grammar.Endings
import Reckon.Proofs.Grammar.Positions
import Reckon.Proofs.Source.Lookups
import Reckon.Proofs.Token.Places

/-!
A parse error marks the first token that cannot stand where it does. What has been read before it
can always be brought to an end, and whatever goes on with the token is no program. Names that an
open call gives twice stand in the way of both, so the tokens are given names that differ and the
readings are compared.
-/

namespace Reckon

/-- Tokens of which only the kinds are compared. -/
def Correspondence.ofKinds : Correspondence where
  tokens token other := token.kind = other.kind
  texts _ _ := True
  trees _ _ := True
  locations _ _ := True
  kind := id
  text _ := trivial
  location _ := trivial
  placed _ := trivial
  symbol _ := trivial
  joined _ _ := trivial
  point _ := trivial
  through _ _ := trivial
  node _ _ _ _ _ _ _ := trivial

namespace Reading

theorem run_of_renamed {tokens others : List Token}
    (renamed : List.Forall₂ Token.Renamed tokens others) :
    SameOutcome .ofKinds (Reading.start.run tokens) (Reading.start.run others) :=
  run_like ⟨.nil, .start⟩ (renamed.imp fun _ _ same => same.kind)
    (by simp [Reading.start, Stage.heldSign]) (joined_signs_renamed renamed)

/-- Renamed tokens are read if the given ones are, or those give an argument twice. -/
theorem ok_of_renamed {tokens others : List Token}
    (renamed : List.Forall₂ Token.Renamed tokens others) {last : Reading}
    (ran : Reading.start.run others = .ok last) :
    (∃ reading, Reading.start.run tokens = .ok reading) ∨
      Repeats (Reading.start.run tokens) := by
  have outcome := run_of_renamed renamed
  rw [ran] at outcome
  generalize Reading.start.run tokens = left at outcome ⊢
  cases outcome with
  | ok => exact .inl ⟨_, rfl⟩
  | repeats _ either =>
      refine either.elim .inr ?_
      rintro ⟨name, location, ⟨⟩⟩

end Reading

theorem names_of_items (mark : String) (items : List ListItem) :
    (items.map (·.name.text)).Sublist (namesOf (items.flatMap (ListItem.lexemes mark))) := by
  induction items with
  | nil => exact List.Sublist.slnil
  | cons item items induction =>
      rw [List.flatMap_cons, names_of_append, List.map_cons]
      have first : [item.name.text].Sublist (namesOf (item.lexemes mark)) :=
        (List.nil_sublist _).cons_cons item.name.text
      exact first.append induction

theorem names_of_call (call : OpenCall) :
    (call.arguments.reverse.map (·.name.text)).Sublist (namesOf call.lexemes) := by
  have behind := (names_of_items "=" call.arguments.reverse)
  exact behind.trans ((((List.Sublist.refl _).cons _).cons _).filterMap Lexeme.name?)

theorem names_of_inside (inside : Inside) :
    (inside.givenNames.map (·.text)).Sublist (namesOf inside.lexemes) := by
  obtain ⟨head, openings, chain⟩ := inside
  unfold Inside.givenNames
  split
  · next call name around outer same =>
      cases same
      have opened : ((call.arguments.reverse.map (·.name) ++ [name]).map (·.text)).Sublist
          (namesOf (Opening.lexemes (.argument call name around))) := by
        rw [Opening.lexemes, names_of_append, names_of_append, List.map_append, List.map_map]
        have last : [name.text].Sublist (namesOf [.name name.text, .symbol "="]) :=
          (List.nil_sublist _).cons_cons name.text
        exact ((names_of_call call).trans (List.sublist_append_right _ _)).append last
      have within : (Opening.lexemes (.argument call name around)).Sublist
          (Inside.lexemes ⟨head, .argument call name around :: outer, chain⟩) := by
        rw [Inside.lexemes, List.reverse_cons, List.flatMap_append, List.flatMap_singleton]
        exact ((List.sublist_append_right _ _).trans (List.sublist_append_right _ _)).trans
          (List.sublist_append_left _ _)
      exact opened.trans (within.filterMap Lexeme.name?)
  · exact List.nil_sublist _

/-- The names given in an open call are among those read, in the same order. -/
theorem names_of_stage (stage : Stage) :
    (stage.givenNames.map (·.text)).Sublist (namesOf stage.lexemes) := by
  cases stage with
  | nameRead inside name =>
      exact (names_of_inside inside).trans ((List.sublist_append_left _ _).filterMap _)
  | atomRead inside atom =>
      exact (names_of_inside inside).trans ((List.sublist_append_left _ _).filterMap _)
  | argumentDue inside call =>
      rw [Stage.givenNames, List.map_map]
      exact (names_of_call call).trans ((List.sublist_append_right _ _).filterMap _)
  | _ => exact List.nil_sublist _

namespace Reading

/-- If all names that have been read differ, no argument is found to be given twice. -/
theorem step_never_repeats {reading : Reading} {tokens : List Token}
    (spelled : reading.SpelledBy tokens) (distinct : (tokens.filterMap Token.name?).Nodup)
    (token : Token) : ¬ Repeats (reading.step token) := by
  rintro ⟨name, location, failed⟩
  have blames := blames_of_step_error failed
  generalize same : ParseError.repeatedArgument name location = error at blames
  have code := congrArg ParseError.code same
  cases blames with
  | unexpected expected =>
      refine ParseError.code_of_expectation expected ?_
      rw [show ParseError.codeOf expected = .repeatedArgument from code.symm]
      decide
  | unclosedParen => cases code
  | detachedSign => cases code
  | repeatedArgument repeated =>
      obtain ⟨front, rfl, read, _⟩ := spelled
      have given : (reading.stage.givenNames.map (·.text)).Nodup := by
        refine distinct.sublist ?_
        have inReading := (names_of_stage reading.stage).trans
          ((List.sublist_append_right (Tree.forestLexemes reading.finished.reverse) _).filterMap
            Lexeme.name?)
        refine (inReading.trans (names_of_spelled read)).trans ?_
        exact (List.sublist_append_left _ _).filterMap _
      rw [first_repeated_eq_none_iff.mpr ⟨given, by simp⟩] at repeated
      cases repeated

theorem run_never_repeats {reading : Reading} {before tokens : List Token}
    (spelled : reading.SpelledBy before) (proper : ∀ token ∈ tokens, token.IsProper)
    (distinct : ((before ++ tokens).filterMap Token.name?).Nodup) (last : Token) :
    ¬ Repeats (reading.run (tokens ++ [last])) := by
  induction tokens generalizing reading before with
  | nil =>
      rw [List.append_nil] at distinct
      have never := step_never_repeats spelled distinct last
      rw [List.nil_append, run_cons]
      rintro ⟨name, location, failed⟩
      cases stepped : reading.step last with
      | error error =>
          rw [stepped] at failed never
          exact never ⟨name, location, failed⟩
      | ok next =>
          rw [stepped] at failed
          cases failed
  | cons token tokens induction =>
      have earlier : (before.filterMap Token.name?).Nodup :=
        distinct.sublist ((List.sublist_append_left _ _).filterMap _)
      have never := step_never_repeats spelled earlier token
      rw [List.cons_append, run_cons]
      cases stepped : reading.step token with
      | error error =>
          rw [stepped] at never
          exact never
      | ok next =>
          have nextSpelled := spelled_by_takes (takes_of_step stepped) (proper token (by simp))
            spelled
          rw [List.append_cons] at distinct
          exact induction nextSpelled (fun other member => proper other (by simp [member])) distinct

end Reading

/-- The tokens spell a program, which may give an argument twice. -/
def SpellsProgram (tokens : List Token) : Prop :=
  ∃ forest, IsLooseProgram forest ∧ Spells (Tree.forestLexemes forest) tokens

/-- Some program is spelled with the tokens and what may follow them. -/
def BeginsProgram (tokens : List Token) : Prop := ∃ more, SpellsProgram (tokens ++ more)

namespace Reading

/-- Tokens that spell a program are read to the end, unless an argument is given twice. -/
theorem reads_spelled {tokens : List Token} (spelled : SpellsProgram tokens) {stop : Token}
    (ends : stop.kind = .eof) :
    (∃ last, start.run (tokens ++ [stop]) = .ok last) ∨ Repeats (start.run (tokens ++ [stop])) := by
  obtain ⟨forest, program, spelled⟩ := spelled
  have renamed := distinguish_renamed 0 tokens
  obtain ⟨others, otherProgram, otherSpelled⟩ := respells_loose_program program spelled renamed
  have distinct := (distinguish_names 0 tokens).1.sublist (names_of_spelled otherSpelled)
  obtain ⟨parsed, ran, _⟩ := parse_tokens_spelled (otherProgram.program distinct) ends otherSpelled
  cases run : start.run (distinguish 0 tokens ++ [stop]) with
  | error error =>
      rw [parseTokens, run] at ran
      cases ran
  | ok last =>
      have stops : stop.Renamed stop := .same (by simp [ends])
      exact ok_of_renamed (List.rel_append renamed (.cons stops .nil)) run

/-- Tokens that a reading fails at spell no program, whatever follows them. -/
theorem not_begins_of_error {tokens : List Token} {error : ParseError}
    (failed : start.run tokens = .error error) (notRepeated : error.code ≠ .repeatedArgument) :
    ¬ BeginsProgram tokens := by
  rintro ⟨more, spelled⟩
  have ends : (⟨.eof, "", .unknown⟩ : Token).kind = .eof := rfl
  have whole := reads_spelled spelled ends
  rw [List.append_assoc, run_append, failed] at whole
  rcases whole with ⟨last, ran⟩ | ⟨name, location, repeats⟩
  · cases ran
  · cases repeats
    exact notRepeated rfl

/-- What is read with names that differ can be brought to the end of a program. -/
theorem program_of_distinct_run {tokens : List Token} (proper : ∀ token ∈ tokens, token.IsProper)
    (distinct : (tokens.filterMap Token.name?).Nodup) (free : "b" ∉ tokens.filterMap Token.name?)
    {reading : Reading} (ran : start.run tokens = .ok reading) :
    ∃ more forest, (∀ token ∈ more, token.IsProper) ∧ IsProgram forest ∧
      Spells (Tree.forestLexemes forest) (tokens ++ more) := by
  obtain ⟨names, made, more, moreProper, named, ends⟩ := reading.finishes
  have allProper : ∀ token ∈ tokens ++ more, token.IsProper := by
    intro token member
    exact (List.mem_append.mp member).elim (proper token) (moreProper token)
  have allDistinct : ((tokens ++ more).filterMap Token.name?).Nodup := by
    rw [List.filterMap_append, named, List.nodup_append]
    refine ⟨distinct, (show ["b"].Nodup by decide).sublist made, ?_⟩
    rintro name here _ there rfl
    rw [List.mem_singleton.mp (made.subset there)] at here
    exact free here
  let stop : Token := ⟨.eof, "", .unknown⟩
  have never : ¬ Repeats (start.run (tokens ++ more ++ [stop])) :=
    run_never_repeats start_spelled allProper allDistinct stop
  rw [List.append_assoc, run_append, ran] at never
  obtain ⟨last, finished⟩ := (ends stop rfl).resolve_right never
  have whole : start.run (tokens ++ more ++ [stop]) = .ok last := by
    rw [List.append_assoc, run_append, ran]
    exact finished
  obtain ⟨middle, read, stopped⟩ := run_of_append whole
  obtain ⟨_, takes, ⟨⟩⟩ := takes_of_run_cons stopped
  have spelled := spelled_by_run read allProper start_spelled
  rw [List.nil_append] at spelled
  exact ⟨more, last.finished.reverse, moreProper,
    program_of_stop takes rfl (sound_of_run read allProper start_sound),
    spelled_by_stop takes rfl spelled⟩

/-- What has been read begins a program. Its names may repeat arguments, so they are replaced by
names that differ, with which the reading is brought to an end. -/
theorem begins_program_of_run {tokens : List Token} (proper : ∀ token ∈ tokens, token.IsProper)
    {reading : Reading} (ran : start.run tokens = .ok reading) : BeginsProgram tokens := by
  have renamed := distinguish_renamed 0 tokens
  obtain ⟨distinct, made⟩ := distinguish_names 0 tokens
  have free : "b" ∉ (distinguish 0 tokens).filterMap Token.name? := by
    intro member
    obtain ⟨index, _, same⟩ := made "b" member
    exact Token.some_kind_fresh index same.symm
  have back := renamed_back renamed proper
  have otherProper := proper_of_renamed renamed proper
  generalize distinguish 0 tokens = others at back distinct free otherProper
  have never : ¬ Repeats (start.run others) := fun repeats =>
    run_never_repeats start_spelled otherProper distinct default
      (run_append start others [default] ▸ repeats.bind [default])
  obtain ⟨_, otherRan⟩ := (ok_of_renamed back ran).resolve_right never
  obtain ⟨more, forest, moreProper, program, spelled⟩ :=
    program_of_distinct_run otherProper distinct free otherRan
  have moreRenamed : List.Forall₂ Token.Renamed more more :=
    List.forall₂_same.mpr fun token member => .of_proper (moreProper token member)
  exact ⟨more, respells_loose_program program.loose spelled (List.rel_append back moreRenamed)⟩

end Reading

/-- An error blames the first token that no program goes on with. What stands before it begins a
program. The position is counted in the source if both of its numbers fit into 32 bits. -/
theorem parse_error_marks_first_offending_token {source : String} {scanned : List Token}
    {error : ParseError} (scans : tokens source = .ok scanned)
    (failed : parse source = .error error) (notRepeated : error.code ≠ .repeatedArgument)
    (notDetached : error.code ≠ .detachedSign) :
    ∃ before token rest, scanned = before ++ token :: rest ∧ error.location.span = token.span ∧
      BeginsProgram before ∧ ¬ BeginsProgram (before ++ [token]) ∧
      (token.kind = .eof → ¬ SpellsProgram before) ∧
      (∃ front back, source.toList = front ++ back ∧
        error.location.span.start = Text.byteSize front ∧
        ((Text.positionAfter front).Fits →
          error.location.position = Text.positionAfter front)) ∧
      (error.code = .unclosedParen → ∃ opening, (unmatchedParens before).head? = some opening ∧
        error.related? = some opening.span) := by
  obtain ⟨raw, rawFailed, rfl⟩ := run_of_parse_error scans failed
  obtain ⟨before, token, rest, reading, rfl, ran, refused⟩ :=
    Reading.refused_of_run_error rawFailed
  have proper := proper_before scans
  have failedHere : Reading.start.run (before ++ [token]) = .error raw := by
    rw [Reading.run_append, ran]
    change reading.run [token] = _
    rw [Reading.run_cons, refused]
    rfl
  have blames := Reading.blames_of_step_error refused
  have located := blames.located notRepeated notDetached
  have blamed : raw.location.span = token.span := congrArg Location.span located
  refine ⟨before, token, rest, rfl, blamed, Reading.begins_program_of_run proper ran,
    Reading.not_begins_of_error failedHere notRepeated, fun ends spelled => ?_, ?_, ?_⟩
  · rcases Reading.reads_spelled spelled ends with ⟨last, whole⟩ | ⟨name, location, repeats⟩
    · rw [failedHere] at whole
      cases whole
    · rw [failedHere] at repeats
      cases repeats
      exact notRepeated rfl
  · obtain ⟨front, back, split, place⟩ := (tokens_placed scans).1 token (by simp)
    refine ⟨front, token.text.toList ++ back, ?_, ?_, fun fits => ?_⟩
    · rw [split, List.append_assoc]
    · change raw.location.span.start = _
      rw [located, place]
    · rw [located_at_token scans (by simp) (by rwa [place]) located, located, place]
  · intro unclosed
    obtain ⟨opening, innermost, related⟩ := blames.related unclosed
    rw [Reading.parens_of_run ran] at innermost
    exact ⟨opening, innermost, related⟩

/-- A number stands where the call has to be closed. The group before it has been closed. -/
theorem parse_error_marks_number_in_open_call :
    ∃ scanned error, tokens "f(a = (2) 3)" = .ok scanned ∧ parse "f(a = (2) 3)" = .error error ∧
      error.code ≠ .repeatedArgument ∧ error.code ≠ .detachedSign ∧
      ∃ before token rest, scanned = before ++ token :: rest ∧ error.location.span = token.span ∧
        BeginsProgram before ∧ ¬ BeginsProgram (before ++ [token]) ∧
        (token.kind = .eof → ¬ SpellsProgram before) ∧
        (∃ front back, "f(a = (2) 3)".toList = front ++ back ∧
          error.location.span.start = Text.byteSize front ∧
          ((Text.positionAfter front).Fits →
            error.location.position = Text.positionAfter front)) ∧
        (error.code = .unclosedParen → ∃ opening, (unmatchedParens before).head? = some opening ∧
          error.related? = some opening.span) :=
  ⟨_, _, rfl, rfl, by decide, by decide,
    parse_error_marks_first_offending_token rfl rfl (by decide) (by decide)⟩

/-- A parenthesis and a name behind it, in one line as long as spans reach, are refused at the end
of that line. Its column is zero. -/
theorem open_group_in_longest_line {name : List Char}
    (named : TokenKind.ident.Describes (String.ofList name)) (oneLine : '\n' ∉ name)
    (length : name.length + 1 = Span.maxOffset)
    (size : 1 + Text.byteSize name = Span.maxOffset) :
    ∃ scanned error, tokens (String.ofList ('(' :: name)) = .ok scanned ∧
      parse (String.ofList ('(' :: name)) = .error error ∧ error.code = .unclosedParen ∧
      error.location = ⟨.point Span.maxOffset, ⟨1, 0⟩⟩ := by
  let opening := Scan.tokenAt .start .leftParen ['(']
  let inside := Scan.tokenAt (Place.start.afterAll ['(']) .ident name
  let stop := Scan.endAt ((Place.start.afterAll ['(']).afterAll name)
  have begins : Scan.leading '(' name = .ok (some .leftParen, 0) := rfl
  have unbounded : unboundedTokens (String.ofList ('(' :: name)) = .ok [opening, inside, stop] := by
    rw [unboundedTokens, String.toList_ofList, Scan.unbounded_from_token begins, List.take_zero,
      Scan.unbounded_from_last _ _ (by decide) named]
    rfl
  have whole : Text.byteSize ('(' :: name) = Span.maxOffset := by
    rw [Text.byte_size_cons, ← size]
    rfl
  have scans := tokens_of_unbounded unbounded (by rw [String.toList_ofList, whole])
  have ran : parseTokens [opening, inside, stop] =
      .error (.unclosedParen opening.span .eof stop.location) := rfl
  have place : stop.location.span = .point Span.maxOffset := by
    have offset : ((Place.start.afterAll ['(']).afterAll name).offset = Span.maxOffset := by
      rw [Place.after_all_offset, Place.after_all_offset, ← size]
      rfl
    change Span.mk _ _ = _
    rw [offset]
    rfl
  refine ⟨_, (ParseError.unclosedParen opening.span .eof stop.location).located
    (.ofString (String.ofList ('(' :: name))), scans, by rw [parse_of_tokens scans, ran]; rfl,
    rfl, ?_⟩
  change Location.mk stop.location.span
    ((Lines.ofString (String.ofList ('(' :: name))).position stop.location.span.start) = _
  rw [place, Lines.ofString, String.toList_ofList]
  exact congrArg _ (Lines.position_ending_longest_line (by simp [oneLine])
    (by rw [List.length_cons, length]) whole)

/-- The longest such line, of which the end has a column that 32 bits do not hold. -/
theorem longest_open_group_ends_in_column_zero :
    ∃ scanned error,
      tokens (String.ofList ('(' :: List.replicate (Span.maxOffset - 1) 'a')) = .ok scanned ∧
      parse (String.ofList ('(' :: List.replicate (Span.maxOffset - 1) 'a')) = .error error ∧
      error.code = .unclosedParen ∧ error.location = ⟨.point Span.maxOffset, ⟨1, 0⟩⟩ := by
  refine open_group_in_longest_line (Scan.letters_are_name (by decide)) ?_ ?_ ?_
  · intro member
    exact absurd (List.eq_of_mem_replicate member) (by decide)
  · rw [List.length_replicate]
    decide
  · rw [Text.byte_size_replicate]
    decide

end Reckon
