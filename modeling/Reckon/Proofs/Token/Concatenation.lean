import Reckon.Proofs.Tree.Moved

/-!
Texts one behind the other. No token, comment or run of blanks reaches beyond the newline that ends
a text of whole lines, so that its tokens are the same whatever follows, and what follows has the
tokens it has alone, moved behind the text.
-/

namespace Reckon

namespace Scan

variable {chars : List Char}

/-- A run ends before a character that does not belong to it. -/
theorem run_stops {belongs : Char → Bool} {stop : Char} (member : stop ∈ chars)
    (ends : belongs stop = false) (rest : List Char) :
    runLength belongs (chars ++ rest) = runLength belongs chars ∧
      runLength belongs chars < chars.length ∧ stop ∈ chars.drop (runLength belongs chars) := by
  induction chars with
  | nil => cases member
  | cons char chars induction =>
      cases here : belongs char with
      | false =>
          have nothing : ∀ others, runLength belongs (char :: others) = 0 := by
            simp [runLength, here]
          rw [List.cons_append, nothing, nothing]
          exact ⟨rfl, Nat.succ_pos _, member⟩
      | true =>
          have onward : ∀ others,
              runLength belongs (char :: others) = runLength belongs others + 1 := by
            simp [runLength, here]
          have later : stop ∈ chars := by
            rcases List.mem_cons.mp member with rfl | later
            · rw [ends] at here
              cases here
            · exact later
          obtain ⟨same, shorter, behind⟩ := induction later
          rw [List.cons_append, onward, onward, same]
          exact ⟨rfl, Nat.succ_lt_succ shorter, behind⟩

/-- What a block comment was closed by still closes it where more follows. -/
theorem comment_end_append {counted length : Nat} (closed : commentEnd counted chars = .ok length)
    (rest : List Char) : commentEnd counted (chars ++ rest) = .ok length := by
  fun_induction commentEnd counted chars with
  | case1 => cases closed
  | case2 => cases closed
  | case3 counted chars => exact closed
  | case4 counted next chars other induction =>
      rw [List.cons_append, List.cons_append, commentEnd.eq_4 _ _ _ other]
      exact induction closed
  | case5 counted char chars other induction =>
      rw [List.cons_append, commentEnd.eq_5 _ _ _ other]
      exact induction closed

/-- A block comment ends with its closing sign. -/
theorem comment_end_closes {counted length : Nat} (closed : commentEnd counted chars = .ok length) :
    ∃ inner after, chars = inner ++ '#' :: '#' :: after ∧ length = counted + inner.length + 2 := by
  fun_induction commentEnd counted chars with
  | case1 => cases closed
  | case2 => cases closed
  | case3 counted after =>
      cases closed
      exact ⟨[], after, rfl, rfl⟩
  | case4 counted next chars other induction =>
      obtain ⟨inner, after, same, rfl⟩ := induction closed
      refine ⟨'#' :: inner, after, by rw [same, List.cons_append], ?_⟩
      rw [List.length_cons]
      omega
  | case5 counted char chars other induction =>
      obtain ⟨inner, after, same, rfl⟩ := induction closed
      refine ⟨char :: inner, after, by rw [same, List.cons_append], ?_⟩
      rw [List.length_cons]
      omega

theorem exponent_length_stops (member : '\n' ∈ chars) (rest : List Char) :
    exponentLength (chars ++ rest) = exponentLength chars ∧
      exponentLength chars < chars.length := by
  cases chars with
  | nil => cases member
  | cons char chars =>
      rw [List.cons_append, exponentLength, exponentLength]
      split
      · next sign =>
          have later : '\n' ∈ chars := by
            rcases List.mem_cons.mp member with rfl | later
            · rcases sign with same | same <;> cases same
            · exact later
          obtain ⟨same, shorter, _⟩ := run_stops later (by decide : isDigit '\n' = false) rest
          rw [same]
          refine ⟨rfl, ?_⟩
          rw [List.length_cons]
          split <;> omega
      · obtain ⟨same, shorter, _⟩ := run_stops member (by decide : isDigit '\n' = false) rest
        exact ⟨same, shorter⟩

theorem number_tail_stops (member : '\n' ∈ chars) (rest : List Char) :
    numberTail (chars ++ rest) = numberTail chars ∧ (numberTail chars).2 < chars.length := by
  cases chars with
  | nil => cases member
  | cons char chars =>
      have later : char ≠ '\n' → '\n' ∈ chars := fun other =>
        (List.mem_cons.mp member).resolve_left fun same => other same.symm
      by_cases point : char = '.'
      · subst point
        obtain ⟨same, shorter, _⟩ := run_stops (later (by decide))
          (by decide : isDigit '\n' = false) rest
        rw [List.cons_append, numberTail, numberTail, same, List.length_cons]
        exact ⟨rfl, by omega⟩
      · rw [List.cons_append, numberTail.eq_2 char _ point, numberTail.eq_2 char _ point]
        split
        · next marked =>
            have other : char ≠ '\n' := by rcases marked with rfl | rfl <;> decide
            obtain ⟨same, shorter⟩ := exponent_length_stops (later other) rest
            rw [same]
            refine ⟨rfl, ?_⟩
            rw [List.length_cons]
            split <;> dsimp only <;> omega
        · exact ⟨rfl, Nat.succ_pos _⟩

/-- A comment ends before the newline behind it, if it has its end. -/
theorem comment_append {kind? : Option TokenKind} {length : Nat}
    (ended : chars.getLast? = some '\n') (begins : leading '#' chars = .ok (kind?, length))
    (rest : List Char) :
    leading '#' (chars ++ rest) = .ok (kind?, length) ∧ length < chars.length := by
  by_cases block : chars.head? = some '#'
  · obtain ⟨body, rfl⟩ := List.head?_eq_some_iff.mp block
    rw [leading_block] at begins
    rw [List.cons_append, leading_block]
    cases closed : commentEnd 1 body with
    | error counted =>
        rw [closed] at begins
        cases begins
    | ok reached =>
        rw [closed] at begins
        cases begins
        obtain ⟨inner, after, rfl, same⟩ := comment_end_closes closed
        refine ⟨by rw [comment_end_append closed]; rfl, ?_⟩
        -- the comment ends with its closing sign, and the text with a newline
        have further : after ≠ [] := by
          rintro rfl
          rw [← List.cons_append, List.getLast?_append] at ended
          cases ended
        have positive := List.length_pos_of_ne_nil further
        simp only [List.length_cons, List.length_append]
        omega
  · have newline : '\n' ∈ chars := List.mem_of_getLast? ended
    have there : (chars ++ rest).head? ≠ some '#' := by
      cases chars with
      | nil => cases newline
      | cons next chars => exact block
    obtain ⟨same, shorter, _⟩ :=
      @run_stops chars (· != '\n') '\n' newline (by decide) rest
    rw [leading_line block] at begins
    cases begins
    rw [leading_line there, same]
    exact ⟨rfl, shorter⟩

/-- What whole lines begin with is the same where more follows, and ends before they do unless it is
their only character. -/
theorem leading_append {char : Char} {kind? : Option TokenKind} {length : Nat}
    (whole : Text.WholeLines (char :: chars)) (begins : leading char chars = .ok (kind?, length))
    (rest : List Char) :
    leading char (chars ++ rest) = .ok (kind?, length) ∧ (length = 0 ∨ length < chars.length) := by
  by_cases only : chars = []
  · subst only
    obtain rfl : char = '\n' := whole char rfl
    cases begins
    exact ⟨rfl, .inl rfl⟩
  have ended : chars.getLast? = some '\n' := by
    have last := List.getLast?_eq_some_getLast only
    rw [last]
    exact congrArg some (Text.whole_lines_tail whole _ last)
  have newline : '\n' ∈ chars := List.mem_of_getLast? ended
  by_cases comment : char = '#'
  · subst comment
    obtain ⟨same, shorter⟩ := comment_append ended begins rest
    exact ⟨same, .inr shorter⟩
  unfold leading at begins ⊢
  rw [if_neg comment] at begins ⊢
  split_ifs at begins ⊢ with blank digit name
  · obtain ⟨same, shorter, _⟩ := run_stops newline (by decide : isBlank '\n' = false) rest
    cases begins
    exact ⟨by rw [same], .inr shorter⟩
  · obtain ⟨same, shorter, later⟩ := run_stops newline (by decide : isDigit '\n' = false) rest
    obtain ⟨tail, ends⟩ := number_tail_stops later rest
    dsimp only at begins ⊢
    rw [same, List.drop_append_of_le_length (Nat.le_of_lt shorter), tail]
    refine ⟨begins, .inr ?_⟩
    cases begins
    rw [List.length_drop] at ends
    omega
  · obtain ⟨same, shorter, _⟩ := run_stops newline (by decide : continuesName '\n' = false) rest
    dsimp only at begins ⊢
    rw [same, List.take_append_of_le_length (Nat.le_of_lt shorter)]
    refine ⟨begins, .inr ?_⟩
    cases begins
    exact shorter
  · refine ⟨begins, .inl ?_⟩
    split at begins
    · cases begins
      rfl
    · cases begins

/-- Scanning whole lines comes to the place behind them, with a newline found last if there are any,
and what follows is scanned from there. -/
theorem unbounded_from_append {place : Place} {found scanned : List Token} {passed : Nat}
    (whole : Text.WholeLines chars) (within : passed = 0 ∨ passed < chars.length)
    (same : unboundedFrom place found passed chars = .ok scanned) :
    ∃ before stop, scanned = before.reverse ++ [stop] ∧ stop.kind = .eof ∧
      ((chars = [] ∧ before = found) ∨ ∃ last, before.head? = some last ∧ last.kind = .newline) ∧
      ∀ rest, unboundedFrom place found passed (chars ++ rest) =
        unboundedFrom (place.afterAll (chars.drop passed)) before 0 rest := by
  induction chars generalizing place found passed with
  | nil =>
      obtain rfl : passed = 0 := within.resolve_right (Nat.not_lt_zero _)
      cases same
      exact ⟨found, _, List.reverse_cons, rfl, .inl ⟨rfl, rfl⟩, fun _ => rfl⟩
  | cons char chars induction =>
      have wholeTail := Text.whole_lines_tail whole
      cases passed with
      | succ passed =>
          have shorter := Nat.lt_of_succ_lt_succ (within.resolve_left (Nat.succ_ne_zero _))
          obtain ⟨before, stop, split, ends, closed, further⟩ :=
            induction wholeTail (.inr shorter) same
          have some : chars ≠ [] := List.ne_nil_of_length_pos (Nat.zero_lt_of_lt shorter)
          exact ⟨before, stop, split, ends, .inr (closed.resolve_left fun none => some none.1),
            further⟩
      | zero =>
          have onward : ∀ length, (place.afterAll (char :: chars.take length)).afterAll
              (chars.drop length) = place.afterAll (char :: chars) := by
            intro length
            rw [← Place.after_all_append, List.cons_append, List.take_append_drop]
          rcases begins : leading char chars with length | ⟨kind?, length⟩
          · rw [unbounded_from_blamed begins] at same
            cases same
          · have inside := (leading_append whole begins []).2
            have fits : length ≤ chars.length := by omega
            have again := fun rest => (leading_append whole begins rest).1
            cases kind? with
            | none =>
                rw [unbounded_from_gap begins] at same
                obtain ⟨before, stop, split, ends, closed, further⟩ :=
                  induction wholeTail inside same
                refine ⟨before, stop, split, ends, .inr (closed.resolve_left ?_), fun rest => ?_⟩
                · rintro ⟨rfl, _⟩
                  obtain rfl : char = '\n' := whole char rfl
                  cases begins
                · rw [List.cons_append, unbounded_from_gap (again rest),
                    List.take_append_of_le_length fits, further, onward]
                  rfl
            | some kind =>
                rw [unbounded_from_token begins] at same
                obtain ⟨before, stop, split, ends, closed, further⟩ :=
                  induction wholeTail inside same
                refine ⟨before, stop, split, ends, .inr ?_, fun rest => ?_⟩
                · rcases closed with ⟨rfl, rfl⟩ | closed
                  · obtain rfl : char = '\n' := whole char rfl
                    cases begins
                    exact ⟨_, rfl, rfl⟩
                  · exact closed
                · rw [List.cons_append, unbounded_from_token (again rest),
                    List.take_append_of_le_length fits, further, onward]
                  rfl

/-- Scanning from a place further on, with other tokens found before, gives those and then the same
tokens moved, or blames the same character there. -/
theorem unbounded_from_moved (shift : Shift) (before : List Token) (place : Place)
    (found : List Token) (passed : Nat) (chars : List Char) :
    (∃ scanned, unboundedFrom place found passed chars = .ok scanned ∧
      unboundedFrom (place.moved shift) (found.map (Token.moved shift) ++ before) passed chars =
        .ok (before.reverse ++ scanned.map (Token.moved shift))) ∨
    ∃ char location,
      unboundedFrom place found passed chars = .error (.unexpectedChar char location) ∧
      unboundedFrom (place.moved shift) (found.map (Token.moved shift) ++ before) passed chars =
        .error (.unexpectedChar char (location.moved shift)) := by
  induction chars generalizing place found passed with
  | nil =>
      refine .inl ⟨_, rfl, ?_⟩
      rw [unboundedFrom, List.reverse_cons, List.reverse_append, List.reverse_cons, List.map_append,
        List.map_reverse, List.append_assoc]
      rfl
  | cons char chars induction =>
      cases passed with
      | succ passed => exact induction place found passed
      | zero =>
          rcases begins : leading char chars with length | ⟨_ | kind, length⟩
          · rw [unbounded_from_blamed begins, unbounded_from_blamed begins, Place.after_all_moved,
              Place.up_to_moved]
            exact .inr ⟨_, _, rfl, rfl⟩
          · rw [unbounded_from_gap begins, unbounded_from_gap begins, Place.after_all_moved]
            exact induction _ found length
          · rw [unbounded_from_token begins, unbounded_from_token begins, Place.after_all_moved]
            have token : tokenAt (place.moved shift) kind (char :: chars.take length) =
                (tokenAt place kind (char :: chars.take length)).moved shift := by
              rw [tokenAt, Place.after_all_moved, Place.up_to_moved]
              rfl
            rw [token, ← List.cons_append, ← List.map_cons]
            exact induction _ _ length

end Scan

/-- The tokens of a text behind whole lines are those of the lines, of which the last is a newline,
without the end of input, and then its own, moved; or its first character that begins no token is
blamed, moved as well. -/
theorem unbounded_append {source : String} {scanned : List Token}
    (whole : Text.WholeLines source.toList) (scans : unboundedTokens source = .ok scanned)
    (rest : String) :
    ∃ body stop, scanned = body ++ [stop] ∧ stop.kind = .eof ∧
      (∀ last ∈ body.getLast?, last.kind = .newline) ∧
      ((∃ others, unboundedTokens rest = .ok others ∧ unboundedTokens (source ++ rest) =
        .ok (body ++ others.map (Token.moved (.over source.toList)))) ∨
      ∃ char location, unboundedTokens rest = .error (.unexpectedChar char location) ∧
        unboundedTokens (source ++ rest) =
          .error (.unexpectedChar char (location.moved (.over source.toList)))) := by
  obtain ⟨before, stop, split, ends, closed, further⟩ :=
    Scan.unbounded_from_append whole (.inl rfl) scans
  refine ⟨before.reverse, stop, split, ends, ?_, ?_⟩
  · rw [List.getLast?_reverse]
    rintro last member
    rcases closed with ⟨_, rfl⟩ | ⟨newline, first, kind⟩
    · cases member
    · rw [first] at member
      cases member
      exact kind
  · have onward : unboundedTokens (source ++ rest) =
        Scan.unboundedFrom (Place.start.moved (.over source.toList)) before 0 rest.toList := by
      rw [unboundedTokens, String.toList_append, further, List.drop_zero,
        Place.after_whole_lines whole]
    rw [onward]
    exact Scan.unbounded_from_moved (.over source.toList) before .start [] 0 rest.toList

/-- Nothing of this changes where spans reach to the end of both. -/
theorem tokens_append {source rest : String} {scanned : List Token}
    (whole : Text.WholeLines source.toList) (scans : tokens source = .ok scanned)
    (fits : Text.byteSize (source ++ rest).toList ≤ Span.maxOffset) :
    ∃ body stop, scanned = body ++ [stop] ∧ stop.kind = .eof ∧
      (∀ last ∈ body.getLast?, last.kind = .newline) ∧
      ((∃ others, tokens rest = .ok others ∧ tokens (source ++ rest) =
        .ok (body ++ others.map (Token.moved (.over source.toList)))) ∨
      ∃ char location, tokens rest = .error (.unexpectedChar char location) ∧
        tokens (source ++ rest) =
          .error (.unexpectedChar char (location.moved (.over source.toList)))) := by
  have alone : Text.byteSize rest.toList ≤ Span.maxOffset := by
    rw [String.toList_append, Text.byte_size_append] at fits
    omega
  rw [tokens_eq_unbounded fits, tokens_eq_unbounded alone]
  exact unbounded_append whole (tokens_eq_ok_iff.mp scans).1 rest

end Reckon
