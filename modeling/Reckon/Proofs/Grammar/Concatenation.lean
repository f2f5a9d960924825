import Reckon.Proofs.Grammar.Layout
import Reckon.Proofs.Grammar.Positions
import Reckon.Proofs.Token.Blame
import Reckon.Proofs.Token.Concatenation

/-!
Programs one behind the other. What has been finished is not looked at again, and after a newline
the next statement begins as at the start of a program. So whole lines can be read apart from what
follows them, and what follows is read as it would be alone, and moved.
-/

namespace Reckon

namespace Reading

/-- The reading with more trees finished before its own. -/
def behind (before : List Tree) (reading : Reading) : Reading :=
  { reading with finished := reading.finished ++ before }

@[simp] theorem behind_stage (before : List Tree) (reading : Reading) :
    (reading.behind before).stage = reading.stage := rfl

section

variable (before : List Tree) (reading : Reading) (inside : Inside) (token : Token)

theorem line_end_behind (finished : List Tree) :
    lineEnd (finished ++ before) token = (lineEnd finished token).map (behind before) := by
  unfold lineEnd
  split <;> rfl

theorem close_call_behind (call : OpenCall) : (reading.behind before).closeCall inside call token =
    (reading.closeCall inside call token).map (behind before) := by
  unfold closeCall
  split
  · rfl
  · split <;> rfl

theorem close_expr_behind (head : Head) (value : Tree) (openings : List Opening) :
    (reading.behind before).closeExpr head value token openings =
      (reading.closeExpr head value token openings).map (behind before) := by
  cases openings with
  | nil => exact line_end_behind before token (head.finish value :: reading.finished)
  | cons opening openings =>
      cases opening with
      | group opening around =>
          simp only [closeExpr]
          split <;> rfl
      | argument call name around =>
          simp only [closeExpr]
          split
          · rfl
          · exact close_call_behind ..

theorem after_atom_behind (atom : Tree) : (reading.behind before).afterAtom inside atom token =
    (reading.afterAtom inside atom token).map (behind before) := by
  unfold afterAtom
  split
  · rfl
  · rfl
  · rfl
  · rfl
  · rfl
  · exact close_expr_behind ..

theorem after_sign_behind (sign : Token) : (reading.behind before).afterSign inside sign token =
    (reading.afterSign inside sign token).map (behind before) := by
  unfold afterSign
  split
  · split <;> rfl
  · rfl

theorem begin_atom_behind : (reading.behind before).beginAtom inside token =
    (reading.beginAtom inside token).map (behind before) := by
  unfold beginAtom
  split <;> rfl

theorem after_name_behind (name : Token) : (reading.behind before).afterName inside name token =
    (reading.afterName inside name token).map (behind before) := by
  unfold afterName
  split
  · rfl
  · exact after_atom_behind ..

theorem begin_statement_behind : (reading.behind before).beginStatement token =
    (reading.beginStatement token).map (behind before) := by
  unfold beginStatement
  split
  · exact line_end_behind ..
  · exact line_end_behind ..
  · rfl
  · rfl
  · exact begin_atom_behind ..

theorem close_signature_behind (signature : OpenSignature) :
    (reading.behind before).closeSignature signature token =
      (reading.closeSignature signature token).map (behind before) := by
  unfold closeSignature
  split <;> rfl

/-- A token does to a reading what it does with more trees finished before. -/
theorem step_behind : (reading.behind before).step token =
    (reading.step token).map (behind before) := by
  obtain ⟨finished, stage⟩ := reading
  cases stage with
  | start => exact begin_statement_behind before ⟨finished, .start⟩ token
  | named name =>
      simp only [step, behind_stage]
      split
      · rfl
      · rfl
      · exact after_name_behind ..
  | definition name =>
      simp only [step, behind_stage]
      split <;> rfl
  | kindRead name kind =>
      simp only [step, behind_stage]
      split <;> rfl
  | parameterDue signature =>
      simp only [step, behind_stage]
      split
      · exact close_signature_behind ..
      · rfl
      · rfl
  | parameterNamed signature name =>
      simp only [step, behind_stage]
      split <;> rfl
  | parameterKindDue signature name =>
      simp only [step, behind_stage]
      split <;> rfl
  | parameterRead signature name kind =>
      simp only [step, behind_stage]
      split
      · rfl
      · exact close_signature_behind ..
  | signatureRead name signature =>
      simp only [step, behind_stage]
      split <;> rfl
  | atomDue inside => exact begin_atom_behind ..
  | signRead inside sign => exact after_sign_behind ..
  | nameRead inside name => exact after_name_behind ..
  | atomRead inside atom => exact after_atom_behind ..
  | argumentDue inside call =>
      simp only [step, behind_stage]
      split
      · exact close_call_behind ..
      · rfl
      · rfl
  | argumentNamed inside call name =>
      simp only [step, behind_stage]
      split <;> rfl

theorem run_behind (tokens : List Token) : (reading.behind before).run tokens =
    (reading.run tokens).map (behind before) := by
  induction tokens generalizing reading with
  | nil => rfl
  | cons token tokens induction =>
      rw [run_cons, run_cons, step_behind]
      cases reading.step token with
      | error error => rfl
      | ok next => exact induction next

end

/-- A newline that is taken ends the statement. -/
theorem start_of_newline {reading next : Reading} {token : Token} (takes : Takes reading token next)
    (newline : token.kind = .newline) : next.stage = .start := by
  cases takes with
  | newline => rfl
  | endLine => rfl
  | number _ leaf =>
      rw [newline] at leaf
      cases leaf
  | signedNumber _ leaf =>
      rw [newline] at leaf
      cases leaf
  | _ => simp_all

end Reading

/-- The error with every place in it moved. -/
def ParseError.moved (shift : Shift) (error : ParseError) : ParseError :=
  { error with
    location := error.location.moved shift
    related? := error.related?.map (Span.moved shift) }

namespace Correspondence

theorem moved_pieces {shift : Shift} {pieces others : List (Piece Tree)}
    (all : List.Forall₂ (Piece.Like (fun text other => other = text)
      fun tree other => other = tree.moved shift) pieces others) :
    others = pieces.map (Piece.map (Tree.moved shift)) := by
  induction all with
  | nil => rfl
  | cons alike _ induction =>
      cases alike with
      | tree same => rw [same, induction, List.map_cons, Piece.map]
      | token same => rw [same, induction, List.map_cons, Piece.map]

/-- Tokens, trees and locations with the same ones moved. -/
def moved (shift : Shift) : Correspondence where
  tokens token other := other = token.moved shift
  texts text other := other = text
  trees tree other := other = tree.moved shift
  locations location other := other = location.moved shift
  kind := by rintro token _ rfl; rfl
  text := by rintro token _ rfl; rfl
  location := by rintro token _ rfl; rfl
  placed := by rintro tree _ rfl; exact tree.moved_location shift
  symbol _ := rfl
  joined := by rintro _ _ _ _ rfl rfl; rfl
  point := by rintro token _ rfl; rfl
  through := by rintro first last _ _ rfl rfl; exact Location.through_moved shift first last
  node := by
    rintro production pieces _ location _ all rfl
    rw [Tree.moved_node, moved_pieces all]

end Correspondence

theorem joined_signs_moved (shift : Shift) (tokens : List Token) :
    joinedSigns (tokens.map (Token.moved shift)) = joinedSigns tokens := by
  match tokens with
  | [] => rfl
  | [token] => rfl
  | sign :: next :: rest =>
      have later := joined_signs_moved shift (next :: rest)
      rw [List.map_cons] at later
      rw [List.map_cons, List.map_cons, joinedSigns, joinedSigns, later, Token.adjacent_moved]
      rfl

/-- Moved tokens are read to the same trees moved, or refused by the same error moved. -/
theorem parse_tokens_moved (shift : Shift) (tokens : List Token) :
    (∃ forest, parseTokens tokens = .ok forest ∧
      parseTokens (tokens.map (Token.moved shift)) = .ok (forest.map (Tree.moved shift))) ∨
    ∃ error, parseTokens tokens = .error error ∧
      parseTokens (tokens.map (Token.moved shift)) = .error (error.moved shift) := by
  let like := Correspondence.moved shift
  have start : Reading.start.Like like .start := ⟨.nil, .start⟩
  have all : List.Forall₂ like.tokens tokens (tokens.map (Token.moved shift)) := by
    rw [List.forall₂_map_right_iff, List.forall₂_same]
    exact fun _ _ => rfl
  have outcome := Reading.run_like start all (by simp [Reading.start, Stage.heldSign])
    (joined_signs_moved shift tokens).symm
  simp only [parseTokens]
  generalize Reading.start.run tokens = left at outcome ⊢
  generalize Reading.start.run (tokens.map (Token.moved shift)) = right at outcome ⊢
  cases outcome with
  | @ok reading reading' readings =>
      refine .inl ⟨_, rfl, ?_⟩
      have same : List.Forall₂ (· = ·) (reading.finished.map (Tree.moved shift))
          reading'.finished :=
        List.forall₂_map_left_iff.mpr (readings.finished.imp fun _ _ moved => moved.symm)
      rw [List.forall₂_eq_eq_eq] at same
      change Except.ok reading'.finished.reverse = _
      rw [← same, List.map_reverse]
  | unexpected expected blamed =>
      cases blamed
      exact .inr ⟨_, rfl, rfl⟩
  | unclosedParen opened blamed =>
      cases opened
      cases blamed
      exact .inr ⟨_, rfl, rfl⟩
  | detachedSign blamed =>
      cases blamed
      exact .inr ⟨_, rfl, rfl⟩
  | repeatedArgument blamed texts =>
      cases blamed
      exact .inr ⟨_, rfl, rfl⟩
  | repeats renamed => exact absurd (fun token other alike => (like.text alike).symm) renamed

/-- Where the last token is a newline, a program is read, or refused, before the end of input is
looked at. -/
theorem parse_of_whole_lines {body : List Token} {stop : Token}
    (closed : ∀ last ∈ body.getLast?, last.kind = .newline) (ends : stop.kind = .eof) :
    (∃ forest, parseTokens (body ++ [stop]) = .ok forest ∧
      Reading.start.run body = .ok (Reading.start.behind forest.reverse)) ∨
    ∃ error, parseTokens (body ++ [stop]) = .error error ∧
      Reading.start.run body = .error error := by
  rw [parseTokens, Reading.run_append]
  cases ran : Reading.start.run body with
  | error error => exact .inr ⟨error, rfl, rfl⟩
  | ok reading =>
      have stage : reading.stage = .start := by
        rcases List.eq_nil_or_concat body with rfl | ⟨front, last, rfl⟩
        · cases ran
          rfl
        · rw [List.concat_eq_append] at ran closed
          obtain ⟨middle, _, ran⟩ := Reading.run_of_append ran
          obtain ⟨next, takes, ended⟩ := Reading.takes_of_run_cons ran
          cases ended
          exact Reading.start_of_newline takes (closed last (by simp))
      obtain ⟨finished, _⟩ := reading
      cases stage
      have stopped : Reading.run ⟨finished, .start⟩ [stop] = .ok ⟨finished, .start⟩ := by
        rw [Reading.run_cons, Reading.step_of_takes (.stop ends)]
        rfl
      refine .inl ⟨finished.reverse, ?_, ?_⟩
      · change Except.map _ (Reading.run ⟨finished, .start⟩ [stop]) = _
        rw [stopped]
        rfl
      · rw [List.reverse_reverse]
        rfl

namespace Lines

variable {source front back : List Char}

theorem position_after_append (whole : Text.WholeLines source) (front : List Char) :
    Text.positionAfter (source ++ front) = (Text.positionAfter front).moved (.over source) := by
  have onward : Place.start.afterAll (source ++ front) =
      (Place.start.afterAll front).moved (.over source) := by
    rw [Place.after_all_append, Place.after_whole_lines whole, Place.after_all_moved]
  rw [Place.after_all_start, Place.after_all_start] at onward
  exact congrArg Place.position onward

/-- Behind whole lines the line table has the same positions, moved, unless there are more lines
than 32 bits can number. -/
theorem position_moved (whole : Text.WholeLines source)
    (fits : Text.byteSize (source ++ (front ++ back)) ≤ Span.maxOffset)
    (numbered : (source ++ front).count '\n' < Span.maxOffset) :
    (ofText (source ++ (front ++ back))).position (Text.byteSize front + Text.byteSize source) =
      ((ofText (front ++ back)).position (Text.byteSize front)).moved (.over source) := by
  by_cases nothing : source = []
  · subst nothing
    rfl
  have positive := Text.byte_size_pos nothing
  have early : Text.byteSize front < Span.maxOffset := by
    rw [Text.byte_size_append, Text.byte_size_append] at fits
    omega
  have here := position_of_lt early back
  have moved : (Text.positionAfter (source ++ front)).Fits := by
    rw [position_after_append whole, Text.position_after_eq]
    have column := (fits_of_lt early).column
    rw [Text.position_after_eq] at column
    rw [List.count_append] at numbered
    have last : Span.maxOffset + 1 = UInt32.size := rfl
    refine ⟨?_, column⟩
    change front.count '\n' + 1 + source.count '\n' < _
    omega
  rw [here, ← position_after_append whole, Nat.add_comm, ← Text.byte_size_append,
    ← List.append_assoc]
  exact position_of_text (by rwa [List.append_assoc]) moved

end Lines

namespace ParseError

/-- An error in a text has its position moved where the text stands behind whole lines. -/
theorem located_moved {source rest : String} {error : ParseError} {front back : List Char}
    (whole : Text.WholeLines source.toList)
    (fits : Text.byteSize (source ++ rest).toList ≤ Span.maxOffset)
    (split : rest.toList = front ++ back) (starts : error.location.span.start = Text.byteSize front)
    (numbered : (source.toList ++ front).count '\n' < Span.maxOffset) :
    (error.moved (.over source.toList)).located (.ofString (source ++ rest)) =
      (error.located (.ofString rest)).moved (.over source.toList) := by
  rw [String.toList_append, split] at fits
  have position : (Lines.ofString (source ++ rest)).position
      (error.location.span.start + Text.byteSize source.toList) =
        ((Lines.ofString rest).position error.location.span.start).moved (.over source.toList) := by
    rw [Lines.ofString, Lines.ofString, String.toList_append, split, starts,
      Lines.position_moved whole fits numbered]
  simp only [located, moved, Location.moved, ← position]
  rfl

end ParseError

/-- Only newlines can be as many as the last offset, and then nothing else is there. -/
theorem Text.newlines_of_count {text rest : List Char}
    (fits : byteSize (text ++ rest) ≤ Span.maxOffset) (many : Span.maxOffset ≤ text.count '\n') :
    rest = [] ∧ ∀ char ∈ text, char = '\n' := by
  have newlines : text.count '\n' ≤ text.length := List.count_le_length
  have length := length_le_byte_size text
  rw [byte_size_append] at fits
  constructor
  · by_contra some
    have positive := byte_size_pos some
    omega
  · intro char member
    exact (List.count_eq_length.mp (by omega) char member).symm

theorem Token.newline_of_proper {token : Token} (proper : token.IsProper)
    (only : ∀ char ∈ token.text.toList, char = '\n') : token.kind = .newline := by
  obtain ⟨inside, described⟩ := proper
  obtain ⟨kind, text, location⟩ := token
  have first {char : Char} {rest : List Char} (begins : text.toList = char :: rest) :
      char = '\n' := only char (begins ▸ List.mem_cons_self)
  cases kind with
  | newline => rfl
  | eof => exact absurd rfl inside
  | int =>
      obtain ⟨char, rest, begins, digit⟩ := Scan.first_of_digits described
      rw [first begins] at digit
      cases digit
  | num =>
      obtain ⟨char, rest, begins, digit⟩ := Scan.first_of_real described
      rw [first begins] at digit
      cases digit
  | ident =>
      obtain ⟨⟨char, rest, begins, starts, _⟩, _⟩ := described
      rw [first begins] at starts
      cases starts
  | _ =>
      obtain rfl := Option.some.inj described
      cases first rfl

namespace Reading

/-- Newlines alone are read. -/
theorem run_newlines {tokens : List Token} (finished : List Tree)
    (only : ∀ token ∈ tokens, token.kind = .newline ∨ token.kind = .eof) :
    ∃ last, Reading.run ⟨finished, .start⟩ tokens = .ok last := by
  induction tokens generalizing finished with
  | nil => exact ⟨_, rfl⟩
  | cons token tokens induction =>
      have later : ∀ other ∈ tokens, other.kind = .newline ∨ other.kind = .eof :=
        fun other member => only other (List.mem_cons_of_mem _ member)
      rw [run_cons]
      rcases only token List.mem_cons_self with kind | kind
      · rw [step_of_takes (.newline kind)]
        exact induction _ later
      · rw [step_of_takes (.stop kind)]
        exact induction _ later

/-- Where reading a source fails, the source is not all newlines. -/
theorem other_than_newline {source : String} {scanned : List Token} {error : ParseError}
    (scans : tokens source = .ok scanned) (failed : Reading.start.run scanned = .error error) :
    ¬∀ char ∈ source.toList, char = '\n' := by
  intro only
  have kinds : ∀ token ∈ scanned, token.kind = .newline ∨ token.kind = .eof := by
    obtain ⟨body, stop, rfl, proper, ends⟩ := tokens_proper scans
    intro token member
    rcases List.mem_append.mp member with inside | last
    · obtain ⟨before, after, whole, _⟩ := (tokens_placed scans).1 token member
      refine .inl (Token.newline_of_proper (proper token inside) fun char among => ?_)
      exact only char (by simp [whole, among])
    · rw [List.mem_singleton.mp last]
      exact .inr ends
  obtain ⟨last, ran⟩ := run_newlines [] kinds
  exact nomatch ran.symm.trans failed

end Reading

section

variable {source rest : String} {scanned : List Token} {error : ParseError}
  (whole : Text.WholeLines source.toList)
  (fits : Text.byteSize (source ++ rest).toList ≤ Span.maxOffset)

include whole fits

/-- What reading a text blames has its position moved behind whole lines. -/
theorem located_moved_of_run (scans : tokens rest = .ok scanned)
    (failed : Reading.start.run scanned = .error error) :
    (error.moved (.over source.toList)).located (.ofString (source ++ rest)) =
      (error.located (.ofString rest)).moved (.over source.toList) := by
  obtain ⟨token, member, place⟩ := Reading.error_at_token failed
  obtain ⟨front, back, split, located⟩ := (tokens_placed scans).1 token member
  rw [List.append_assoc] at split
  refine ParseError.located_moved whole fits split (by rw [place, located]) ?_
  by_contra many
  rw [String.toList_append, split, ← List.append_assoc] at fits
  obtain ⟨nothing, only⟩ := Text.newlines_of_count fits (Nat.not_lt.mp many)
  refine Reading.other_than_newline scans failed fun char among => only char ?_
  rw [split, nothing, List.append_nil] at among
  exact List.mem_append_right _ among

theorem located_moved_of_scan {char : Char} {location : Location}
    (fails : tokens rest = .error (.unexpectedChar char location)) :
    (ParseError.ofScanError (.unexpectedChar char (location.moved (.over source.toList)))).located
        (.ofString (source ++ rest)) =
      ((ParseError.ofScanError (.unexpectedChar char location)).located
        (.ofString rest)).moved (.over source.toList) := by
  obtain ⟨unbounded, _⟩ := tokens_eq_blamed_iff.mp fails
  obtain ⟨blamed, some, front, back, split, located⟩ :=
    (Scan.unbounded_fails_iff.mp unbounded).holds
  rw [List.append_assoc] at split
  refine @ParseError.located_moved source rest (.ofScanError (.unexpectedChar char location))
    front _ whole fits split ?_ ?_
  · change location.span.start = _
    rw [located]
  · by_contra many
    rw [String.toList_append, split, ← List.append_assoc] at fits
    obtain ⟨nothing, _⟩ := Text.newlines_of_count fits (Nat.not_lt.mp many)
    exact some (List.append_eq_nil_iff.mp nothing).1

end

theorem run_of_parse_tokens {scanned : List Token} {error : ParseError}
    (failed : parseTokens scanned = .error error) : Reading.start.run scanned = .error error := by
  rw [parseTokens] at failed
  cases run : Reading.start.run scanned with
  | error other =>
      rw [run] at failed
      cases failed
      rfl
  | ok last =>
      rw [run] at failed
      cases failed

/-- What a program is read to behind whole lines that were read: their trees and then its own,
moved, or its own error, moved. -/
theorem parse_behind_whole_lines {source rest : String} {forest : List Tree}
    (whole : Text.WholeLines source.toList)
    (fits : Text.byteSize (source ++ rest).toList ≤ Span.maxOffset)
    (parsed : parse source = .ok forest) :
    (∃ more, parse rest = .ok more ∧
      parse (source ++ rest) = .ok (forest ++ more.map (Tree.moved (.over source.toList)))) ∨
    ∃ error, parse rest = .error error ∧
      parse (source ++ rest) = .error (error.moved (.over source.toList)) := by
  obtain ⟨scanned, scans, read⟩ := parse_eq_ok_iff.mp parsed
  obtain ⟨body, stop, rfl, ends, closed, behind⟩ := tokens_append whole scans fits
  rcases behind with ⟨others, alone, joined⟩ | ⟨char, location, alone, joined⟩
  · rcases parse_of_whole_lines closed ends with ⟨trees, same, ran⟩ | ⟨error, failed, _⟩
    · obtain rfl : trees = forest := Except.ok.inj (same.symm.trans read)
      have onward : ∀ later, parseTokens (body ++ later) =
          (parseTokens later).map (trees ++ ·) := by
        intro later
        rw [parseTokens, Reading.run_append, ran]
        change Except.map _ ((Reading.start.behind trees.reverse).run later) = _
        rw [Reading.run_behind, parseTokens]
        cases Reading.start.run later with
        | error error => rfl
        | ok reading =>
            change Except.ok (reading.finished ++ trees.reverse).reverse = _
            rw [List.reverse_append, List.reverse_reverse]
            rfl
      rw [parse_of_tokens alone, parse_of_tokens joined, onward]
      rcases parse_tokens_moved (.over source.toList) others with
        ⟨more, read, moved⟩ | ⟨error, failed, moved⟩
      · exact .inl ⟨more, by rw [read]; rfl, by rw [moved]; rfl⟩
      · refine .inr ⟨_, by rw [failed]; rfl, ?_⟩
        rw [moved]
        exact congrArg _ (located_moved_of_run whole fits alone (run_of_parse_tokens failed))
    · cases failed.symm.trans read
  · rw [parse_of_scan_error alone, parse_of_scan_error joined,
      located_moved_of_scan whole fits alone]
    exact .inr ⟨_, rfl, rfl⟩

/-- Parsing goes over to texts one behind the other that spans reach over, where the first is whole
lines and has tokens. The trees of both are read, those of the second moved over the first; an error
of the second is moved in the same way; and where the grammar is left in the first, it is left
there. -/
theorem parse_append {source rest : String} {scanned : List Token}
    (whole : Text.WholeLines source.toList) (scans : tokens source = .ok scanned)
    (fits : Text.byteSize (source ++ rest).toList ≤ Span.maxOffset) :
    (∀ forest more, parse source = .ok forest → parse rest = .ok more →
      parse (source ++ rest) = .ok (forest ++ more.map (Tree.moved (.over source.toList)))) ∧
    (∀ forest error, parse source = .ok forest → parse rest = .error error →
      parse (source ++ rest) = .error (error.moved (.over source.toList))) ∧
    ∀ error others, parse source = .error error → tokens rest = .ok others →
      parse (source ++ rest) = .error error := by
  refine ⟨fun forest more parsed read => ?_, fun forest error parsed refused => ?_,
    fun error others refused alone => ?_⟩
  · rcases parse_behind_whole_lines whole fits parsed with ⟨same, again, joined⟩ | ⟨_, failed, _⟩
    · cases read.symm.trans again
      exact joined
    · cases read.symm.trans failed
  · rcases parse_behind_whole_lines whole fits parsed with ⟨_, read, _⟩ | ⟨same, again, joined⟩
    · cases refused.symm.trans read
    · cases refused.symm.trans again
      exact joined
  · obtain ⟨body, stop, rfl, ends, closed, behind⟩ := tokens_append whole scans fits
    rcases behind with ⟨moved, _, joined⟩ | ⟨_, _, failed, _⟩
    · obtain ⟨raw, ran, rfl⟩ := run_of_parse_error scans refused
      rcases parse_of_whole_lines closed ends with ⟨_, read, _⟩ | ⟨same, again, stopped⟩
      · rw [parseTokens, ran] at read
        cases read
      · obtain rfl : same = raw :=
          Except.error.inj ((run_of_parse_tokens again).symm.trans ran)
        obtain ⟨token, member, place⟩ := Reading.error_at_token stopped
        have proper := proper_before scans token member
        have before := List.mem_append_left [stop] member
        have after := List.mem_append_left (moved.map (Token.moved (.over source.toList))) member
        rw [located_at_proper_token scans before proper place, parse_of_tokens joined, parseTokens,
          Reading.run_append, stopped]
        exact congrArg _ (located_at_proper_token joined after proper place)
    · cases alone.symm.trans failed

/-- A parenthesis that stays open behind a comment over two lines. -/
theorem parse_open_group_behind_comment :
    Text.WholeLines "## over\ntwo lines ##\n".toList ∧
      tokens "## over\ntwo lines ##\n" = .ok [⟨.newline, "\n", ⟨⟨20, 21⟩, ⟨2, 13⟩⟩⟩,
        ⟨.eof, "", ⟨⟨21, 21⟩, ⟨3, 1⟩⟩⟩] ∧
      Text.byteSize ("## over\ntwo lines ##\n" ++ "(x").toList ≤ Span.maxOffset ∧
      parse "(x" = .error (.unclosedParen ⟨0, 1⟩ .eof ⟨⟨2, 2⟩, ⟨1, 3⟩⟩) ∧
      parse ("## over\ntwo lines ##\n" ++ "(x") =
        .error (.unclosedParen ⟨21, 22⟩ .eof ⟨⟨23, 23⟩, ⟨3, 3⟩⟩) := by
  have whole : Text.WholeLines "## over\ntwo lines ##\n".toList := by simp [Text.WholeLines]
  have scans : tokens "## over\ntwo lines ##\n" = .ok [⟨.newline, "\n", ⟨⟨20, 21⟩, ⟨2, 13⟩⟩⟩,
      ⟨.eof, "", ⟨⟨21, 21⟩, ⟨3, 1⟩⟩⟩] := rfl
  have fits : Text.byteSize ("## over\ntwo lines ##\n" ++ "(x").toList ≤ Span.maxOffset := by decide
  have opened : tokens "(x" = .ok [⟨.leftParen, "(", ⟨⟨0, 1⟩, ⟨1, 1⟩⟩⟩,
      ⟨.ident, "x", ⟨⟨1, 2⟩, ⟨1, 2⟩⟩⟩, ⟨.eof, "", ⟨⟨2, 2⟩, ⟨1, 3⟩⟩⟩] := rfl
  have refused : parse "(x" = .error (.unclosedParen ⟨0, 1⟩ .eof ⟨⟨2, 2⟩, ⟨1, 3⟩⟩) := by
    have located := @located_at_token _ _ (.unclosedParen ⟨0, 1⟩ .eof ⟨⟨2, 2⟩, ⟨1, 3⟩⟩)
      ⟨.eof, "", ⟨⟨2, 2⟩, ⟨1, 3⟩⟩⟩ opened (by simp) ⟨by decide, by decide⟩ rfl
    rw [parse_of_tokens opened]
    exact congrArg _ located
  exact ⟨whole, scans, fits, refused, (parse_append whole scans fits).2.1 _ _ rfl refused⟩

end Reckon
