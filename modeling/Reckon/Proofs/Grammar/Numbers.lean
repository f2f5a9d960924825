import Reckon.Proofs.Grammar.Positions

/-!
Numbers at the beginning of a program. A sign is scanned apart from the number after it, and the
parser puts the two together again, so that the number is one leaf with its text as it was written.
-/

namespace Reckon

/-- Where a text stands that a source begins with. -/
def Location.ofText (text : List Char) : Location := ⟨⟨0, Text.byteSize text⟩, .start⟩

namespace Tree

/-- The expression that is one number and nothing else. -/
def ofNumber (production : Production) (text : String) (place : Location) : Tree :=
  Chain.empty.finish (.atomOf (.leaf production text place))

/-- The leaf of a number that a source begins with. -/
def numberLeaf (production : Production) (text : List Char) : Tree :=
  leaf production (String.ofList text) (.ofText text)

end Tree

namespace Scan

/-- The tokens of the sign that a source begins with. -/
inductive SignTokens : List Char → List Token → Prop where
  | none : SignTokens [] []
  | sign {kind : TokenKind} {char : Char} (signs : kind = .plus ∨ kind = .minus) :
      SignTokens [char] [tokenAt .start kind [char]]

/-- The token of a number behind the sign that a source begins with. -/
def numberAfter (sign : List Char) (kind : TokenKind) (number : List Char) : Token :=
  tokenAt (Place.start.afterAll sign) kind number

/-- A sign is scanned apart from whatever follows. -/
theorem unbounded_from_sign {sign : List Char} (signed : IsSign sign) (rest : List Char) :
    ∃ signs, SignTokens sign signs ∧ unboundedFrom .start [] 0 (sign ++ rest) =
      unboundedFrom (Place.start.afterAll sign) signs.reverse 0 rest := by
  rcases signed with rfl | rfl | rfl
  · exact ⟨_, .none, rfl⟩
  · have plus : leading '+' rest = .ok (some .plus, 0) := rfl
    exact ⟨_, .sign (.inl rfl), unbounded_from_token plus⟩
  · have minus : leading '-' rest = .ok (some .minus, 0) := rfl
    exact ⟨_, .sign (.inr rfl), unbounded_from_token minus⟩

theorem location_of_start (kind : TokenKind) (text : List Char) :
    (tokenAt .start kind text).location = .ofText text := by
  simp only [tokenAt, Place.upTo, Place.after_all_start]
  rfl

theorem location_after_sign (sign : List Char) (kind : TokenKind) (number : List Char) :
    (numberAfter sign kind number).location =
      ⟨⟨Text.byteSize sign, Text.byteSize sign + Text.byteSize number⟩,
        Text.positionAfter sign⟩ := by
  simp only [numberAfter, tokenAt, Place.upTo]
  rw [← Place.after_all_append, Place.after_all_start, Place.after_all_start,
    Text.byte_size_append]

/-- The sign and the number after it are one piece of the source. -/
theorem through_number (sign number : List Char) (first kind : TokenKind) :
    (tokenAt .start first sign).location.through (numberAfter sign kind number).location =
      .ofText (sign ++ number) := by
  rw [location_of_start, location_after_sign]
  simp only [Location.through, Span.merge, Location.ofText, Text.byte_size_append, Nat.zero_min]
  rw [Nat.max_eq_right (Nat.le_add_right _ _)]

end Scan

namespace Reading

open Scan

/-- The reading that has read a number and nothing else. -/
def ofNumber (production : Production) (text : List Char) : Reading :=
  ⟨[], .atomRead (.start .bare) (.atomOf (Tree.numberLeaf production text))⟩

/-- A sign and the number after it are read as one leaf. -/
theorem run_number {sign : List Char} {signs : List Token} (split : SignTokens sign signs)
    {kind : TokenKind} {production : Production} (leaf : NumberLeaf kind production)
    (number : List Char) : Reading.start.run (signs ++ [numberAfter sign kind number]) =
      .ok (ofNumber production (sign ++ number)) := by
  cases split with
  | none =>
      have read : Reading.start.step (numberAfter [] kind number) =
          .ok ⟨[], .atomRead (.start .bare)
            (.atomOf (.ofToken production (numberAfter [] kind number)))⟩ :=
        step_of_takes (.number .bare leaf)
      have whole : Tree.ofToken production (numberAfter [] kind number) =
          Tree.numberLeaf production number := by
        have place : (numberAfter [] kind number).location = _ := location_of_start kind number
        rw [Tree.ofToken, place]
        rfl
      rw [List.nil_append, run_cons, read, whole]
      rfl
  | @sign first char signs =>
      have begun : Reading.start.step (tokenAt .start first [char]) =
          .ok ⟨[], .signRead (.start .bare) (tokenAt .start first [char])⟩ :=
        step_of_takes (.sign .bare signs)
      have adjacent :
          (tokenAt .start first [char]).isAdjacent (numberAfter [char] kind number) = true :=
        beq_iff_eq.mpr rfl
      have read := step_of_takes (@Takes.signedNumber [] (.start .bare) _ _ _ adjacent leaf)
      have whole : literal production (tokenAt .start first [char])
          (numberAfter [char] kind number) =
            .atomOf (Tree.numberLeaf production ([char] ++ number)) := by
        rw [literal, through_number]
        simp only [numberAfter, tokenAt, Tree.numberLeaf, String.ofList_append]
      rw [List.singleton_append, run_cons, begun]
      change Reading.run _ _ = _
      rw [run_cons, read, whole]
      rfl

/-- With the end of the input the number is an expression. -/
theorem run_number_end (production : Production) (text : List Char) {stop : Token}
    (ends : stop.kind = .eof) :
    (ofNumber production text).run [stop] =
      .ok ⟨[.ofNumber production (String.ofList text) (.ofText text)], .start⟩ := by
  have ended : (ofNumber production text).step stop =
      .ok ⟨[.ofNumber production (String.ofList text) (.ofText text)], .start⟩ :=
    step_of_takes (.endProgram (.whole _ _) ends)
  rw [run_cons, ended]
  rfl

end Reading

open Scan

/-- A number is scanned as one token behind that of its sign. -/
theorem unbounded_number {sign number : List Char} {kind : TokenKind} (signed : IsSign sign)
    (inside : kind ≠ .eof) (described : kind.Describes (String.ofList number)) :
    ∃ signs stop, SignTokens sign signs ∧ stop.kind = .eof ∧
      unboundedTokens (String.ofList (sign ++ number)) =
        .ok (signs ++ [numberAfter sign kind number] ++ [stop]) := by
  obtain ⟨signs, split, begun⟩ := unbounded_from_sign signed number
  have rest := unbounded_from_last (Place.start.afterAll sign) signs.reverse inside described
  refine ⟨signs, endAt ((Place.start.afterAll sign).afterAll number), split, rfl, ?_⟩
  rw [unboundedTokens, String.toList_ofList, begun, rest, List.reverse_reverse, List.append_assoc]
  rfl

/-- A program that is one number is read as one expression that is a literal and nothing else. -/
theorem parse_number {sign number : List Char} {kind : TokenKind} {production : Production}
    (signed : IsSign sign) (leaf : Reading.NumberLeaf kind production)
    (described : kind.Describes (String.ofList number))
    (fits : Text.byteSize (sign ++ number) ≤ Span.maxOffset) :
    parse (String.ofList (sign ++ number)) =
      .ok [.ofNumber production (String.ofList (sign ++ number)) (.ofText (sign ++ number))] := by
  have inside : kind ≠ .eof := by
    cases leaf <;> decide
  obtain ⟨signs, stop, split, ends, scanned⟩ := unbounded_number signed inside described
  refine parse_eq_ok_iff.mpr
    ⟨_, tokens_of_unbounded scanned (by rwa [String.toList_ofList]), ?_⟩
  rw [parseTokens, Reading.run_append, Reading.run_number split leaf]
  change (Reading.run _ _).map _ = _
  rw [Reading.run_number_end production _ ends]
  rfl

/-! A number with both a point and an exponent: the exponent does not belong to it. -/

namespace Scan

/-- The name that the mark of an exponent begins where the exponent belongs to no number: with its
digits, or without them if a sign is between. -/
def markedName (mark : Char) (sign power : List Char) : List Char :=
  if sign = [] then mark :: power else [mark]

theorem marked_name_described {mark : Char} {power : List Char} (sign : List Char)
    (marked : mark = 'e' ∨ mark = 'E') (digits : IsDigits power) :
    TokenKind.ident.Describes (String.ofList (markedName mark sign power)) := by
  have starts : startsName mark = true := by
    rcases marked with rfl | rfl <;> rfl
  have continues : ∀ char ∈ power, continuesName char = true := fun char member => by
    rw [continuesName, digits.2 char member, Bool.or_true]
  rw [markedName]
  split
  · refine ⟨⟨mark, power, String.toList_ofList, starts, continues⟩, fun echo => ?_⟩
    cases String.ofList_injective echo
    exact absurd (digits.2 'c' (by simp)) (by decide)
  · refine ⟨⟨mark, [], String.toList_ofList, starts, by simp⟩, fun echo => ?_⟩
    cases String.ofList_injective echo

/-- An exponent by itself is scanned as a name with what is left of the exponent behind it. -/
theorem unbounded_from_mark (place : Place) (found : List Token) {mark : Char}
    {sign power : List Char} (marked : mark = 'e' ∨ mark = 'E') (signed : IsSign sign)
    (digits : IsDigits power) :
    ∃ more, unboundedFrom place found 0 (mark :: (sign ++ power)) =
      .ok (found.reverse ++ tokenAt place .ident (markedName mark sign power) :: more) := by
  have named := marked_name_described sign marked digits
  have powered : TokenKind.int.Describes (String.ofList power) := by
    simpa [TokenKind.Describes] using digits
  -- behind a mark alone stand the token of the sign and that of the digits
  have split (kind : TokenKind) (char : Char) (same : sign = [char])
      (separate : continuesName char = false ∧ char ≠ '.')
      (begins : leading char power = .ok (some kind, 0)) :
      ∃ more, unboundedFrom place found 0 (mark :: (sign ++ power)) =
        .ok (found.reverse ++ tokenAt place .ident (markedName mark sign power) :: more) := by
    subst same
    have whole := @unbounded_from_text place found _ _ (char :: power) (by decide) named
      fun _ next member => by cases member; exact separate
    rw [String.toList_ofList] at whole
    have last := unbounded_from_last ((place.afterAll [mark]).afterAll [char])
      (tokenAt (place.afterAll [mark]) kind [char] :: tokenAt place .ident [mark] :: found)
      (by decide) powered
    simp only [List.reverse_cons, List.append_assoc, List.cons_append, List.nil_append] at last
    exact ⟨_, (whole.trans (unbounded_from_token begins)).trans last⟩
  rcases signed with rfl | rfl | rfl
  · exact ⟨[_], unbounded_from_last place found (by decide) named⟩
  · exact split .plus '+' rfl (by decide) rfl
  · exact split .minus '-' rfl (by decide) rfl

/-- A point takes the digits behind it into a number, and no exponent. -/
theorem unbounded_from_point (place : Place) (found : List Token) {mark : Char}
    {whole fraction rest : List Char} (digits : IsDigits whole)
    (others : ∀ char ∈ fraction, isDigit char = true) (marked : mark = 'e' ∨ mark = 'E') :
    unboundedFrom place found 0 (whole ++ '.' :: fraction ++ mark :: rest) =
      unboundedFrom (place.afterAll (whole ++ '.' :: fraction))
        (tokenAt place .num (whole ++ '.' :: fraction) :: found) 0 (mark :: rest) := by
  have ends : ∀ next ∈ (mark :: rest).head?, isDigit next = false := by
    rintro next ⟨⟩
    rcases marked with rfl | rfl <;> rfl
  have tail : numberTail ('.' :: (fraction ++ mark :: rest)) = (.num, 1 + fraction.length) := by
    rw [numberTail, run_length_append others ends]
  obtain ⟨first, whole, rfl, digit⟩ := first_of_digits digits
  have begins : leading first (whole ++ '.' :: fraction ++ mark :: rest) =
      .ok (some .num, (whole ++ '.' :: fraction).length) := by
    rw [List.append_assoc, List.cons_append, leading_number digit
      (fun char member => digits.2 char (List.mem_cons_of_mem _ member))
      (by rintro next ⟨⟩; rfl), tail, List.length_append, List.length_cons, Nat.add_comm 1]
  have number := @unbounded_from_token place found _ _ _ _ begins
  rw [List.take_left, unbounded_from_skip] at number
  exact number

end Scan

namespace Reading

/-- A name does not continue an expression that is a number. -/
theorem step_name_of_number (production : Production) (text : List Char) {name : Token}
    (named : name.kind = .ident) : (ofNumber production text).step name =
      .error (.unexpected .endOfStatement .ident name.location) := by
  simp only [ofNumber, step, afterAtom, closeExpr, lineEnd, named, refuse]
  rfl

end Reading

/-- A number with a point is scanned without the exponent behind it, which begins a name. -/
theorem unbounded_split_number {mark : Char} {sign whole fraction powerSign power : List Char}
    (signed : IsSign sign) (digits : IsDigits whole)
    (others : ∀ char ∈ fraction, isDigit char = true) (marked : mark = 'e' ∨ mark = 'E')
    (powerSigned : IsSign powerSign) (powered : IsDigits power) :
    ∃ signs more, SignTokens sign signs ∧
      unboundedTokens
          (String.ofList (sign ++ (whole ++ '.' :: fraction ++ mark :: (powerSign ++ power)))) =
        .ok (signs ++ [numberAfter sign .num (whole ++ '.' :: fraction)] ++
          tokenAt (Place.start.afterAll (sign ++ (whole ++ '.' :: fraction))) .ident
            (markedName mark powerSign power) :: more) := by
  obtain ⟨signs, split, begun⟩ := unbounded_from_sign signed
    (whole ++ '.' :: fraction ++ mark :: (powerSign ++ power))
  obtain ⟨more, last⟩ := unbounded_from_mark
    (Place.start.afterAll (sign ++ (whole ++ '.' :: fraction)))
    (numberAfter sign .num (whole ++ '.' :: fraction) :: signs.reverse) marked powerSigned powered
  refine ⟨signs, more, split, ?_⟩
  rw [unboundedTokens, String.toList_ofList, begun, unbounded_from_point _ _ digits others marked,
    ← Place.after_all_append]
  rw [numberAfter, List.reverse_cons, List.reverse_reverse] at last
  exact last

/-- Such a program is refused for the name. -/
theorem parse_split_number {mark : Char} {sign whole fraction powerSign power : List Char}
    (signed : IsSign sign) (digits : IsDigits whole)
    (others : ∀ char ∈ fraction, isDigit char = true) (marked : mark = 'e' ∨ mark = 'E')
    (powerSigned : IsSign powerSign) (powered : IsDigits power)
    (fits : Text.byteSize (sign ++ (whole ++ '.' :: fraction ++ mark :: (powerSign ++ power))) ≤
      Span.maxOffset) :
    parse (String.ofList (sign ++ (whole ++ '.' :: fraction ++ mark :: (powerSign ++ power)))) =
      .error (.unexpected .endOfStatement .ident
        (tokenAt (Place.start.afterAll (sign ++ (whole ++ '.' :: fraction))) .ident
          (markedName mark powerSign power)).location) := by
  obtain ⟨signs, more, split, scanned⟩ :=
    unbounded_split_number signed digits others marked powerSigned powered
  have scans := tokens_of_unbounded scanned (by rwa [String.toList_ofList])
  have proper : Token.IsProper (tokenAt (Place.start.afterAll (sign ++ (whole ++ '.' :: fraction)))
      .ident (markedName mark powerSign power)) :=
    ⟨(by decide : TokenKind.ident ≠ .eof), marked_name_described powerSign marked powered⟩
  have refused : parseTokens (signs ++ [numberAfter sign .num (whole ++ '.' :: fraction)] ++
      tokenAt (Place.start.afterAll (sign ++ (whole ++ '.' :: fraction))) .ident
        (markedName mark powerSign power) :: more) =
      .error (.unexpected .endOfStatement .ident
        (tokenAt (Place.start.afterAll (sign ++ (whole ++ '.' :: fraction))) .ident
          (markedName mark powerSign power)).location) := by
    rw [parseTokens, Reading.run_append, Reading.run_number split .num]
    change (Reading.run _ _).map _ = _
    rw [Reading.run_cons, Reading.step_name_of_number _ _ rfl]
    rfl
  rw [parse_of_tokens scans, refused]
  exact congrArg _ (located_at_proper_token scans (by simp) proper rfl)

end Reckon
