import Reckon.Proofs.Tree.Spelling

/-!
Writing tokens with blanks between them. A token is as long as it can be, so that a text of its kind
is found again wherever what follows does not continue it; leaves written with blanks between them
are scanned as the tokens that spell them.
-/

namespace Reckon

/-- What follows may belong to a token of the kind, be it more of a number or more of a name. -/
def TokenKind.GoesOn (kind : TokenKind) : Prop :=
  kind = .int ∨ kind = .num ∨ kind = .ident ∨ kind = .echo

instance : DecidablePred TokenKind.GoesOn := fun _ => inferInstanceAs (Decidable (_ ∨ _))

namespace Scan

/-- The text neither continues a name or a number before it nor gives the number a point. -/
def Separates (rest : List Char) : Prop :=
  ∀ next ∈ rest.head?, continuesName next = false ∧ next ≠ '.'

theorem run_length_append {belongs : Char → Bool} {chars rest : List Char}
    (all : ∀ char ∈ chars, belongs char = true) (ends : ∀ next ∈ rest.head?, belongs next = false) :
    runLength belongs (chars ++ rest) = chars.length := by
  rw [runLength, List.takeWhile_append_of_pos all]
  cases rest with
  | nil => simp
  | cons next rest => simp [ends next rfl]

theorem not_digit_of_separates {rest : List Char} (separates : Separates rest) :
    ∀ next ∈ rest.head?, isDigit next = false := by
  intro next member
  have none := (separates next member).1
  simp only [continuesName, Bool.or_eq_false_iff] at none
  exact none.2

theorem digit_is_no_gap {char : Char} (digit : isDigit char = true) :
    isBlank char = false ∧ char ≠ '#' := by
  constructor
  · rw [Bool.eq_false_iff]
    intro blank
    simp only [isBlank, Bool.or_eq_true, beq_iff_eq] at blank
    rcases blank with (rfl | rfl) | rfl <;> exact absurd digit (by decide)
  · rintro rfl
    exact absurd digit (by decide)

theorem name_is_no_gap {char : Char} (name : startsName char = true) :
    isBlank char = false ∧ char ≠ '#' ∧ isDigit char = false := by
  refine ⟨?_, ?_, ?_⟩
  · rw [Bool.eq_false_iff]
    intro blank
    simp only [isBlank, Bool.or_eq_true, beq_iff_eq] at blank
    rcases blank with (rfl | rfl) | rfl <;> exact absurd name (by decide)
  · rintro rfl
    exact absurd name (by decide)
  · rw [Bool.eq_false_iff]
    intro digit
    simp only [isDigit, startsName, Bool.and_eq_true, Bool.or_eq_true, decide_eq_true_eq,
      beq_iff_eq] at digit name
    rcases name with (rfl | name) | name
    · exact absurd digit (by decide)
    · exact absurd (Char.le_trans name.1 digit.2) (by decide)
    · exact absurd (Char.le_trans name.1 digit.2) (by decide)

theorem leading_digit {char : Char} {rest : List Char} (digit : isDigit char = true) :
    leading char rest =
      .ok (some (numberTail (rest.drop (runLength isDigit rest))).1,
        runLength isDigit rest + (numberTail (rest.drop (runLength isDigit rest))).2) := by
  obtain ⟨blank, comment⟩ := digit_is_no_gap digit
  simp only [leading, blank, Bool.false_eq_true, if_false, if_neg comment, digit, if_true]

theorem leading_start {char : Char} {rest : List Char} (name : startsName char = true) :
    leading char rest =
      .ok (some (if char :: rest.take (runLength continuesName rest) == ['e', 'c', 'h', 'o']
        then .echo else .ident), runLength continuesName rest) := by
  obtain ⟨blank, comment, digit⟩ := name_is_no_gap name
  simp only [leading, blank, Bool.false_eq_true, if_false, if_neg comment, digit, name, if_true]

theorem number_tail_of_separates {rest : List Char} (separates : Separates rest) :
    numberTail rest = (.int, 0) := by
  cases rest with
  | nil => rfl
  | cons next rest =>
      obtain ⟨none, point⟩ := separates next rfl
      have mark : ¬(next = 'e' ∨ next = 'E') := by
        rintro (rfl | rfl) <;> exact absurd none (by decide)
      rw [numberTail]
      · rw [if_neg mark]
      · exact fun same => point same

theorem exponent_length_append {sign power rest : List Char} (signed : IsSign sign)
    (digits : IsDigits power) (ends : ∀ next ∈ rest.head?, isDigit next = false) :
    exponentLength (sign ++ power ++ rest) = sign.length + power.length := by
  have run := run_length_append digits.2 ends
  obtain ⟨first, others, rfl, digit⟩ := first_of_digits digits
  rcases signed with rfl | rfl | rfl
  · have unsigned : ¬(first = '+' ∨ first = '-') := by
      rintro (rfl | rfl) <;> exact absurd digit (by decide)
    simp only [List.nil_append, List.cons_append, exponentLength, if_neg unsigned] at run ⊢
    simpa using run
  · simp only [List.cons_append, List.nil_append, exponentLength, true_or, if_true] at run ⊢
    rw [run]
    simp only [List.length_cons, List.length_nil]
    omega
  · simp only [List.cons_append, List.nil_append, exponentLength, or_true, if_true] at run ⊢
    rw [run]
    simp only [List.length_cons, List.length_nil]
    omega

theorem leading_number {char : Char} {digits tail : List Char} (digit : isDigit char = true)
    (all : ∀ char ∈ digits, isDigit char = true)
    (ends : ∀ next ∈ tail.head?, isDigit next = false) :
    leading char (digits ++ tail) =
      .ok (some (numberTail tail).1, digits.length + (numberTail tail).2) := by
  rw [leading_digit digit, run_length_append all ends, List.drop_left]

theorem leading_real {char : Char} {chars rest : List Char} (real : IsReal (char :: chars))
    (separates : Separates rest) :
    leading char (chars ++ rest) = .ok (some .num, chars.length) := by
  generalize same : char :: chars = text at real
  cases real with
  | @point whole fraction digits others =>
      obtain ⟨first, whole, rfl, digit⟩ := first_of_digits digits
      rw [List.cons_append] at same
      cases same
      have tail : numberTail ('.' :: (fraction ++ rest)) = (.num, 1 + fraction.length) := by
        rw [numberTail, run_length_append others (not_digit_of_separates separates)]
      rw [List.append_assoc, List.cons_append, leading_number digit
        (fun char member => digits.2 char (by simp [member])) (by rintro next ⟨⟩; rfl), tail]
      simp only [List.length_append, List.length_cons]
      congr 3
      omega
  | @exponent whole sign power mark digits marked signed others =>
      obtain ⟨first, whole, rfl, digit⟩ := first_of_digits digits
      rw [List.cons_append] at same
      cases same
      have noDigit : isDigit mark = false := by rcases marked with rfl | rfl <;> rfl
      have tail : numberTail (mark :: (sign ++ power ++ rest)) =
          (.num, sign.length + power.length + 1) := by
        have length := exponent_length_append signed others (not_digit_of_separates separates)
        obtain ⟨count, positive⟩ : ∃ count, sign.length + power.length = count + 1 := by
          have some := List.length_pos_iff.mpr others.1
          exact ⟨sign.length + power.length - 1, by omega⟩
        rw [numberTail]
        · rw [if_pos marked, length, positive]
        · rintro rfl
          rcases marked with same | same <;> cases same
      rw [List.append_assoc, List.cons_append, leading_number digit
        (fun char member => digits.2 char (by simp [member]))
        (by rintro next ⟨⟩; exact noDigit), tail]
      simp only [List.length_append, List.length_cons, Nat.add_assoc]

theorem leading_name {char : Char} {chars rest : List Char} (first : startsName char = true)
    (others : ∀ char ∈ chars, continuesName char = true)
    (ends : ∀ next ∈ rest.head?, continuesName next = false) :
    leading char (chars ++ rest) =
      .ok (some (if char :: chars == ['e', 'c', 'h', 'o'] then .echo else .ident),
        chars.length) := by
  rw [leading_start first, run_length_append others ends, List.take_left]

/-- A text of a kind of token is taken whole before anything that does not continue it. -/
theorem leading_of_described {kind : TokenKind} {char : Char} {chars rest : List Char}
    (inside : kind ≠ .eof) (described : kind.Describes (String.ofList (char :: chars)))
    (separates : kind.GoesOn → Separates rest) :
    leading char (chars ++ rest) = .ok (some kind, chars.length) := by
  cases kind with
  | eof => exact absurd rfl inside
  | int =>
      have separates := separates (by simp [TokenKind.GoesOn])
      simp only [TokenKind.Describes, String.toList_ofList] at described
      rw [leading_number (described.2 char (by simp))
        (fun other member => described.2 other (by simp [member]))
        (not_digit_of_separates separates), number_tail_of_separates separates]
      rfl
  | num =>
      simp only [TokenKind.Describes, String.toList_ofList] at described
      exact leading_real described (separates (by simp [TokenKind.GoesOn]))
  | ident =>
      have separates := separates (by simp [TokenKind.GoesOn])
      obtain ⟨⟨first, others, same, starts, continues⟩, other⟩ := described
      rw [String.toList_ofList] at same
      cases same
      rw [leading_name starts continues fun next member => (separates next member).1, if_neg]
      rw [beq_iff_eq]
      intro same
      exact other (by rw [same])
  | echo =>
      have separates := separates (by simp [TokenKind.GoesOn])
      have same := (congrArg String.toList (Option.some.inj described)).trans String.toList_ofList
      cases same
      exact leading_name (by decide) (List.all_eq_true.mp rfl)
        fun next member => (separates next member).1
  | _ =>
      have same := (congrArg String.toList (Option.some.inj described)).trans String.toList_ofList
      cases same
      rfl

theorem unbounded_from_skip (place : Place) (found : List Token) (passed rest : List Char) :
    unboundedFrom place found passed.length (passed ++ rest) =
      unboundedFrom place found 0 rest := by
  induction passed with
  | nil => rfl
  | cons char passed induction =>
      rw [List.length_cons, List.cons_append, unboundedFrom]
      exact induction

/-- No token is empty or begins with a point. -/
theorem first_of_described {kind : TokenKind} {text : String} (inside : kind ≠ .eof)
    (described : kind.Describes text) :
    ∃ first rest, text.toList = first :: rest ∧ first ≠ '.' := by
  have digit_no_point {first : Char} (digit : isDigit first = true) : first ≠ '.' := by
    rintro rfl
    exact absurd digit (by decide)
  cases kind with
  | eof => exact absurd rfl inside
  | int =>
      obtain ⟨first, rest, same, digit⟩ := first_of_digits described
      exact ⟨first, rest, same, digit_no_point digit⟩
  | num =>
      obtain ⟨first, rest, same, digit⟩ := first_of_real described
      exact ⟨first, rest, same, digit_no_point digit⟩
  | ident =>
      obtain ⟨⟨first, rest, same, starts, _⟩, _⟩ := described
      refine ⟨first, rest, same, ?_⟩
      rintro rfl
      exact absurd starts (by decide)
  | _ =>
      obtain rfl := Option.some.inj described
      exact ⟨_, _, rfl, by decide⟩

theorem unbounded_from_text {place : Place} {found : List Token} {kind : TokenKind} {text : String}
    {rest : List Char} (inside : kind ≠ .eof) (described : kind.Describes text)
    (separates : kind.GoesOn → Separates rest) :
    unboundedFrom place found 0 (text.toList ++ rest) =
      unboundedFrom (place.afterAll text.toList) (tokenAt place kind text.toList :: found) 0
        rest := by
  obtain ⟨char, chars, same, _⟩ := first_of_described inside described
  rw [← String.ofList_toList (s := text), same] at described
  have begins := leading_of_described inside described separates
  rw [same, List.cons_append, unbounded_from_token begins, List.take_left]
  exact unbounded_from_skip ..

/-- The token for the end of input at a place. -/
def endAt (place : Place) : Token := ⟨.eof, "", place.upTo place⟩

/-- A text of one token at the end of the input. -/
theorem unbounded_from_last (place : Place) (found : List Token) {kind : TokenKind}
    {text : List Char} (inside : kind ≠ .eof) (described : kind.Describes (String.ofList text)) :
    unboundedFrom place found 0 text =
      .ok (found.reverse ++ [tokenAt place kind text, endAt (place.afterAll text)]) := by
  have whole := @unbounded_from_text place found _ _ [] inside described
    (fun _ => by simp [Separates])
  rw [List.append_nil, String.toList_ofList] at whole
  rw [whole, unboundedFrom, List.reverse_cons, List.reverse_cons, List.append_assoc]
  rfl

/-- A blank is passed over, whether or not there are more behind it. -/
theorem unbounded_from_blank (place : Place) (found : List Token) {char : Char} (rest : List Char)
    (blank : isBlank char = true) :
    unboundedFrom place found 0 (char :: rest) = unboundedFrom (place.after char) found 0 rest := by
  rw [unbounded_from_gap (leading_blank blank)]
  cases rest with
  | nil => rfl
  | cons next rest =>
      by_cases more : isBlank next = true
      · have run : runLength isBlank (next :: rest) = runLength isBlank rest + 1 := by
          simp [runLength, more]
        rw [unbounded_from_gap (leading_blank more), run]
        rfl
      · have run : runLength isBlank (next :: rest) = 0 := by
          simp [runLength, more]
        rw [run]
        rfl

theorem unbounded_from_blanks (place : Place) (found : List Token) {gap : List Char}
    (rest : List Char) (blank : ∀ char ∈ gap, isBlank char = true) :
    unboundedFrom place found 0 (gap ++ rest) =
      unboundedFrom (place.afterAll gap) found 0 rest := by
  induction gap generalizing place with
  | nil => rfl
  | cons char gap induction =>
      rw [List.cons_append, unbounded_from_blank place found _ (blank char (by simp)),
        induction (place.after char) fun other member => blank other (by simp [member])]
      rfl

end Scan

namespace Lexeme

/-- How a leaf is written: a signed number with nothing between the sign and the number. -/
def text : Lexeme → String
  | .plain word => word.text
  | .signed sign number => sign.text ++ number.text

/-- The words are those of tokens. -/
inductive IsProper : Lexeme → Prop where
  | plain {word : Word} (inside : word.kind ≠ .eof) (described : word.kind.Describes word.text) :
      IsProper (.plain word)
  | signed {sign number : Word} (signs : sign.kind = .plus ∨ sign.kind = .minus)
      (signDescribed : sign.kind.Describes sign.text)
      (numeric : number.kind = .int ∨ number.kind = .num)
      (described : number.kind.Describes number.text) : IsProper (.signed sign number)

end Lexeme

namespace Scan

variable (place : Place) (found : List Token) {rest : List Char}

/-- A leaf is scanned as the tokens that spell it. -/
theorem unbounded_from_lexeme {lexeme : Lexeme} (proper : lexeme.IsProper)
    (separates : Separates rest) :
    ∃ next tokens, unboundedFrom place found 0 (lexeme.text.toList ++ rest) =
      unboundedFrom next (tokens.reverse ++ found) 0 rest ∧ Spells [lexeme] tokens := by
  cases proper with
  | @plain word inside described =>
      refine ⟨_, [tokenAt place word.kind word.text.toList],
        unbounded_from_text inside described fun _ => separates, .plain ?_ .nil⟩
      simp only [Token.word, tokenAt, String.ofList_toList]
  | @signed sign number signs signDescribed numeric described =>
      obtain ⟨char, same, text, symbol⟩ : ∃ char, sign.text.toList = [char] ∧
          sign.text = String.ofList [char] ∧
          ∀ rest, leading char rest = .ok (some sign.kind, 0) := by
        obtain ⟨kind, text⟩ := sign
        rcases signs with rfl | rfl <;> cases signDescribed
        · exact ⟨'+', rfl, rfl, fun _ => rfl⟩
        · exact ⟨'-', rfl, rfl, fun _ => rfl⟩
      have inside : number.kind ≠ .eof := by
        rcases numeric with kind | kind <;> rw [kind] <;> decide
      refine ⟨(place.afterAll [char]).afterAll number.text.toList, [tokenAt place sign.kind [char],
        tokenAt (place.afterAll [char]) number.kind number.text.toList], ?_,
        .signed ?_ ?_ ?_ .nil⟩
      · rw [Lexeme.text, String.toList_append, same, List.append_assoc, List.singleton_append,
          unbounded_from_token (symbol _), List.take_zero,
          unbounded_from_text inside described fun _ => separates]
        rfl
      · simp only [Token.word, tokenAt, ← text]
      · simp only [Token.word, tokenAt, String.ofList_toList]
      · simp [Token.isAdjacent, Token.span, tokenAt, Place.upTo]

def blanked (lexemes : List Lexeme) : List Char :=
  lexemes.flatMap fun lexeme => ' ' :: lexeme.text.toList

theorem blanked_separates (lexemes : List Lexeme) : Separates (blanked lexemes) := by
  intro next member
  cases lexemes with
  | nil => cases member
  | cons lexeme lexemes =>
      cases member
      decide

theorem unbounded_from_blanked {lexemes : List Lexeme}
    (proper : ∀ lexeme ∈ lexemes, lexeme.IsProper) :
    ∃ body stop, unboundedFrom place found 0 (blanked lexemes) =
      .ok (found.reverse ++ body ++ [stop]) ∧ stop.kind = .eof ∧ Spells lexemes body := by
  induction lexemes generalizing place found with
  | nil =>
      refine ⟨[], ⟨.eof, "", place.upTo place⟩, ?_, rfl, .nil⟩
      simp [blanked, unboundedFrom]
  | cons lexeme lexemes induction =>
      have here := proper lexeme (by simp)
      obtain ⟨next, tokens, scanned, spelled⟩ :=
        unbounded_from_lexeme (place.after ' ') found here (blanked_separates lexemes)
      obtain ⟨body, stop, others, ends, rest⟩ := induction next (tokens.reverse ++ found)
        fun other member => proper other (by simp [member])
      refine ⟨tokens ++ body, stop, ?_, ends, spelled.append rest⟩
      change unboundedFrom place found 0 (' ' :: (lexeme.text.toList ++ blanked lexemes)) = _
      rw [unbounded_from_blank place found _ rfl, scanned, others]
      simp

end Scan

theorem intercalate_single {α : Type} (blank : α) (first : List α) (rest : List (List α)) :
    List.intercalate [blank] (first :: rest) = first ++ rest.flatMap (blank :: ·) := by
  induction rest generalizing first with
  | nil => simp [List.intercalate]
  | cons second rest induction =>
      have step : List.intercalate [blank] (first :: second :: rest) =
          first ++ blank :: List.intercalate [blank] (second :: rest) := by
        simp [List.intercalate]
      rw [step, induction]
      rfl

/-- Leaves written with blanks between them are scanned as tokens that spell them. -/
theorem unbounded_tokens_of_blanked {lexemes : List Lexeme}
    (proper : ∀ lexeme ∈ lexemes, lexeme.IsProper) :
    ∃ body stop, unboundedTokens (" ".intercalate (lexemes.map Lexeme.text)) =
      .ok (body ++ [stop]) ∧ stop.kind = .eof ∧ Spells lexemes body := by
  cases lexemes with
  | nil => exact ⟨[], _, rfl, rfl, .nil⟩
  | cons lexeme lexemes =>
      have chars : (" ".intercalate ((lexeme :: lexemes).map Lexeme.text)).toList =
          lexeme.text.toList ++ Scan.blanked lexemes := by
        rw [String.toList_intercalate, List.map_cons, List.map_cons]
        refine (intercalate_single ' ' _ _).trans ?_
        rw [Scan.blanked, List.map_map, List.flatMap_map]
        rfl
      obtain ⟨next, front, scanned, spelled⟩ := Scan.unbounded_from_lexeme .start []
        (proper lexeme (by simp)) (Scan.blanked_separates lexemes)
      have others : ∀ other ∈ lexemes, other.IsProper := fun other member =>
        proper other (by simp [member])
      obtain ⟨body, stop, more, ends, rest⟩ :=
        Scan.unbounded_from_blanked next (front.reverse ++ []) others
      refine ⟨front ++ body, stop, ?_, ends, spelled.append rest⟩
      rw [unboundedTokens, chars, scanned, more]
      simp

end Reckon
