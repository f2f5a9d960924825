import Reckon.Proofs.Text.Lines
import Reckon.Proofs.Token.Spacing

/-!
What a text begins with. It is a blank or a comment, or the longest token that any kind describes,
or else something is to blame. Each of the three is said without the scanner, one of them holds of
every text, and scanning does with the text what it says.
-/

namespace Reckon

namespace Scan

/-- The text is a token of the kind, and what comes after it makes no longer one of it. -/
structure IsLongest (kind : TokenKind) (text after : List Char) : Prop where
  inside : kind ≠ .eof
  described : kind.Describes (String.ofList text)
  longest : ∀ more, more ≠ [] → more <+: after → ∀ other : TokenKind,
    ¬other.Describes (String.ofList (text ++ more))

/-- The text is a blank, a comment to the end of its line, or a comment to the first closing sign
behind the opening one. -/
inductive IsGap : List Char → List Char → Prop where
  | blank {char : Char} {after : List Char} (blank : isBlank char = true) : IsGap [char] after
  | line {body after : List Char} (plain : body.head? ≠ some '#') (inside : '\n' ∉ body)
      (ends : after = [] ∨ after.head? = some '\n') : IsGap ('#' :: body) after
  | block {body after : List Char} (first : ¬['#', '#'] <:+: body ++ ['#']) :
      IsGap ('#' :: '#' :: body ++ ['#', '#']) after

/-- The character is no blank and begins neither a comment nor a token. -/
structure BeginsNothing (char : Char) : Prop where
  solid : isBlank char = false
  plain : char ≠ '#'
  starts : ∀ (kind : TokenKind) (more : List Char), ¬kind.Describes (String.ofList (char :: more))

/-- Neither a token nor a gap begins the text: the character that begins none is to blame, or a
comment that is opened and never closed, but for a single sign at the end of the text. -/
inductive Blames : List Char → Char → List Char → Prop where
  | char {char : Char} {rest : List Char} (nothing : BeginsNothing char) :
      Blames (char :: rest) char [char]
  | comment {body : List Char} (opened : ¬['#', '#'] <:+: body) (last : body.getLast? ≠ some '#') :
      Blames ('#' :: '#' :: body) '#' ('#' :: '#' :: body)
  | commentSign {body : List Char} (opened : ¬['#', '#'] <:+: body ++ ['#']) :
      Blames ('#' :: '#' :: body ++ ['#']) '#' ('#' :: '#' :: body)

theorem Blames.beginning {ahead blamed : List Char} {char : Char}
    (blames : Blames ahead char blamed) : blamed ≠ [] ∧ ∃ rest, ahead = blamed ++ rest := by
  cases blames with
  | char => exact ⟨List.cons_ne_nil _ _, _, rfl⟩
  | comment => exact ⟨List.cons_ne_nil _ _, [], (List.append_nil _).symm⟩
  | commentSign => exact ⟨List.cons_ne_nil _ _, _, rfl⟩

theorem run_length_grows (belongs : Char → Bool) (chars rest : List Char) :
    runLength belongs chars ≤ runLength belongs (chars ++ rest) := by
  rw [runLength, runLength, List.takeWhile_append]
  split
  · rw [List.length_append]
    omega
  · exact Nat.le_refl _

theorem exponent_length_grows (chars rest : List Char) :
    exponentLength chars ≤ exponentLength (chars ++ rest) := by
  cases chars with
  | nil => exact Nat.zero_le _
  | cons char chars =>
      rw [List.cons_append, exponentLength, exponentLength]
      split
      · have grows := run_length_grows isDigit chars rest
        cases digits : runLength isDigit chars with
        | zero => exact Nat.zero_le _
        | succ count =>
            obtain ⟨more, same⟩ : ∃ more, runLength isDigit (chars ++ rest) = more + 1 :=
              Nat.exists_eq_add_one_of_ne_zero (by omega)
            rw [same]
            dsimp only
            omega
      · exact run_length_grows isDigit (char :: chars) rest

theorem number_tail_grows (chars rest : List Char) :
    (numberTail chars).2 ≤ (numberTail (chars ++ rest)).2 := by
  cases chars with
  | nil => exact Nat.zero_le _
  | cons char chars =>
      by_cases point : char = '.'
      · subst point
        exact Nat.add_le_add_left (run_length_grows isDigit chars rest) 1
      · rw [List.cons_append, numberTail.eq_2 char _ point, numberTail.eq_2 char _ point]
        split
        · have grows := exponent_length_grows chars rest
          cases power : exponentLength chars with
          | zero => exact Nat.zero_le _
          | succ count =>
              obtain ⟨more, same⟩ : ∃ more, exponentLength (chars ++ rest) = more + 1 :=
                Nat.exists_eq_add_one_of_ne_zero (by omega)
              rw [same]
              dsimp only
              omega
        · exact Nat.zero_le _

section

variable {char : Char} {chars rest : List Char}

/-- Behind a character that is no blank, begins no comment, no number and no name, nothing is looked
at. -/
theorem leading_other (solid : isBlank char = false) (plain : char ≠ '#')
    (digit : isDigit char = false) (name : startsName char = false) :
    leading char rest = (symbol? char).elim (.error 0) fun kind => .ok (some kind, 0) := by
  simp only [leading, solid, Bool.false_eq_true, if_false, if_neg plain, digit, name]
  cases symbol? char <;> rfl

theorem solid_of_token {kind : TokenKind} {length : Nat}
    (begins : leading char rest = .ok (some kind, length)) :
    isBlank char = false ∧ char ≠ '#' := by
  constructor
  · rw [Bool.eq_false_iff]
    intro blank
    rw [leading_blank blank] at begins
    cases begins
  · rintro rfl
    by_cases block : rest.head? = some '#'
    · obtain ⟨body, rfl⟩ := List.head?_eq_some_iff.mp block
      rw [leading_block] at begins
      cases closed : commentEnd 1 body <;> rw [closed] at begins <;> cases begins
    · rw [leading_line block] at begins
      cases begins

end

/-- A token that a text begins with is no shorter where more follows. -/
theorem leading_grows {char : Char} {chars : List Char} {kind : TokenKind} {length : Nat}
    (begins : leading char chars = .ok (some kind, length)) (rest : List Char) :
    ∃ other longer, leading char (chars ++ rest) = .ok (some other, longer) ∧ length ≤ longer := by
  obtain ⟨solid, plain⟩ := solid_of_token begins
  cases digit : isDigit char with
  | true =>
      rw [leading_digit digit] at begins ⊢
      cases begins
      refine ⟨_, _, rfl, ?_⟩
      have runs := run_length_grows isDigit chars rest
      by_cases all : runLength isDigit chars = chars.length
      · rw [all, List.drop_length]
        have tail : (numberTail []).2 = 0 := rfl
        omega
      · -- the digits end where a character that is none stands, and more makes no more of them
        have same : runLength isDigit (chars ++ rest) = runLength isDigit chars := by
          rw [runLength, List.takeWhile_append]
          exact congrArg List.length (if_neg all)
        have within : runLength isDigit chars ≤ chars.length :=
          (List.takeWhile_sublist _).length_le
        rw [same, List.drop_append_of_le_length within]
        exact Nat.add_le_add_left (number_tail_grows _ rest) _
  | false =>
      cases name : startsName char with
      | true =>
          rw [leading_start name] at begins ⊢
          cases begins
          exact ⟨_, _, rfl, run_length_grows continuesName chars rest⟩
      | false =>
          rw [leading_other solid plain digit name] at begins ⊢
          refine ⟨kind, length, begins, Nat.le_refl _⟩

section

variable {kind : TokenKind} {char : Char} {chars text after : List Char} {length : Nat}

/-- What a kind describes begins with a token of that kind. -/
theorem leading_of_alone (described : kind.Describes (String.ofList (char :: chars))) :
    leading char chars = .ok (some kind, chars.length) := by
  have inside : kind ≠ .eof := by
    rintro rfl
    have empty := congrArg String.toList described
    rw [String.toList_ofList] at empty
    cases empty
  have separates : Separates [] := fun _ member => nomatch member
  have begins := leading_of_described inside described fun _ => separates
  rwa [List.append_nil] at begins

/-- The scanner takes the longest token. -/
theorem longest_of_leading (begins : leading char chars = .ok (some kind, length)) :
    length ≤ chars.length ∧ IsLongest kind (char :: chars.take length) (chars.drop length) := by
  obtain ⟨inside, described⟩ := leading_described begins
  have within : length ≤ chars.length := by
    by_contra beyond
    have whole : chars.take length = chars := List.take_of_length_le (by omega)
    rw [whole] at described
    rw [leading_of_alone described] at begins
    cases begins
    exact beyond (Nat.le_refl _)
  refine ⟨within, inside, described, fun more nonempty onward other longer => ?_⟩
  obtain ⟨rest, same⟩ := onward
  have alone : leading char (chars.take length ++ more) =
      .ok (some other, (chars.take length ++ more).length) := leading_of_alone longer
  have grown := leading_grows alone rest
  rw [List.append_assoc, same, List.take_append_drop, begins] at grown
  obtain ⟨_, _, same, longer⟩ := grown
  cases same
  have positive := List.length_pos_of_ne_nil nonempty
  rw [List.length_append, List.length_take] at longer
  omega

/-- The longest token is the one the scanner takes. -/
theorem leading_of_longest (longest : IsLongest kind (char :: text) after) :
    leading char (text ++ after) = .ok (some kind, text.length) := by
  have alone := leading_of_alone longest.described
  obtain ⟨other, longer, begins, reaches⟩ := leading_grows alone after
  obtain ⟨within, taken⟩ := longest_of_leading begins
  have described := taken.described
  rw [List.length_append] at within
  rw [List.take_append, List.take_of_length_le reaches, ← List.cons_append] at described
  have same : longer = text.length := by
    by_contra differs
    refine longest.longest (after.take (longer - text.length)) ?_ (List.take_prefix _ _) other
      described
    intro empty
    have sizes := congrArg List.length empty
    rw [List.length_take, List.length_nil] at sizes
    omega
  subst same
  rw [Nat.sub_self, List.take_zero, List.append_nil] at described
  rw [leading_of_alone described] at alone
  rw [begins]
  cases alone
  rfl

end

/-! Comments. -/

section

variable {char : Char} {body after : List Char}

theorem closing_cons (char : Char) (chars : List Char) :
    ['#', '#'] <:+: char :: chars ↔
      (char = '#' ∧ chars.head? = some '#') ∨ ['#', '#'] <:+: chars := by
  rw [List.infix_cons_iff, List.cons_prefix_cons]
  cases chars with
  | nil => simp
  | cons next chars => simp [List.cons_prefix_cons, eq_comm]

/-- Any character but a closing sign and a last sign belongs to the comment. -/
theorem comment_end_step (counted : Nat) (closing : ¬(char = '#' ∧ body.head? = some '#'))
    (last : ¬(char = '#' ∧ body = [])) :
    commentEnd counted (char :: body) = commentEnd (counted + 1) body := by
  by_cases sign : char = '#'
  · subst sign
    cases body with
    | nil => exact absurd ⟨rfl, rfl⟩ last
    | cons next body =>
        exact commentEnd.eq_4 _ _ _ fun same => closing ⟨rfl, congrArg some same⟩
  · exact commentEnd.eq_5 _ _ _ sign

/-- A comment is closed by the first closing sign. -/
theorem comment_end_of_first (counted : Nat) (first : ¬['#', '#'] <:+: body ++ ['#'])
    (after : List Char) :
    commentEnd counted (body ++ '#' :: '#' :: after) = .ok (counted + body.length + 2) := by
  induction body generalizing counted with
  | nil => rfl
  | cons char body induction =>
      rw [List.cons_append, closing_cons, not_or] at first
      have closing : ¬(char = '#' ∧ (body ++ '#' :: '#' :: after).head? = some '#') := by
        cases body with
        | nil => exact first.1
        | cons next body => exact first.1
      rw [List.cons_append, comment_end_step counted closing (by simp),
        induction (counted + 1) first.2, List.length_cons, Nat.add_right_comm counted,
        Nat.add_assoc counted]

/-- A comment that is not closed goes to the end of the text, but for a sign that is the last
character. -/
theorem comment_end_of_opened (counted : Nat) (opened : ¬['#', '#'] <:+: body) :
    (body.getLast? ≠ some '#' ∧ commentEnd counted body = .error (counted + body.length)) ∨
      ∃ inner, body = inner ++ ['#'] ∧
        commentEnd counted body = .error (counted + inner.length) := by
  induction body generalizing counted with
  | nil => exact .inl ⟨nofun, rfl⟩
  | cons char body induction =>
      rw [closing_cons, not_or] at opened
      by_cases only : char = '#' ∧ body = []
      · obtain ⟨rfl, rfl⟩ := only
        exact .inr ⟨[], rfl, rfl⟩
      · rw [comment_end_step counted opened.1 only]
        rcases induction (counted + 1) opened.2 with ⟨last, same⟩ | ⟨inner, rfl, same⟩
        · left
          rw [same, List.length_cons, Nat.add_right_comm, Nat.add_assoc]
          refine ⟨?_, rfl⟩
          cases body with
          | nil => exact fun ends => only ⟨Option.some.inj ends, rfl⟩
          | cons next body => exact last
        · refine .inr ⟨char :: inner, rfl, ?_⟩
          rw [same, List.length_cons, Nat.add_right_comm, Nat.add_assoc]

/-- A comment is closed or not. -/
theorem closed_or_opened (body : List Char) :
    (∃ inner after, body = inner ++ '#' :: '#' :: after ∧ ¬['#', '#'] <:+: inner ++ ['#']) ∨
      ¬['#', '#'] <:+: body := by
  induction body with
  | nil =>
      right
      simp
  | cons char body induction =>
      by_cases here : char = '#' ∧ body.head? = some '#'
      · obtain ⟨rfl, second⟩ := here
        obtain ⟨after, rfl⟩ := List.head?_eq_some_iff.mp second
        refine .inl ⟨[], after, rfl, fun inside => ?_⟩
        have longer := inside.length_le
        simp at longer
      · rcases induction with ⟨inner, after, rfl, first⟩ | opened
        · refine .inl ⟨char :: inner, after, rfl, ?_⟩
          rw [List.cons_append, closing_cons, not_or]
          refine ⟨fun both => here ⟨both.1, ?_⟩, first⟩
          cases inner with
          | nil => rfl
          | cons next inner => exact both.2
        · right
          rw [closing_cons, not_or]
          exact ⟨here, opened⟩

end

/-! What scanning does with what a text begins with. -/

section

variable {place : Place} {found : List Token} {kind : TokenKind} {char : Char}
  {piece text after ahead blamed : List Char}

theorem IsLongest.nonempty (longest : IsLongest kind text after) : text ≠ [] := by
  obtain ⟨first, rest, same, _⟩ := first_of_described longest.inside longest.described
  rw [String.toList_ofList] at same
  rw [same]
  exact List.cons_ne_nil _ _

theorem IsGap.nonempty (gap : IsGap piece after) : piece ≠ [] := by
  cases gap <;> exact List.cons_ne_nil _ _

theorem unbounded_from_longest (longest : IsLongest kind text after) :
    unboundedFrom place found 0 (text ++ after) =
      unboundedFrom (place.afterAll text) (tokenAt place kind text :: found) 0 after := by
  cases text with
  | nil => exact absurd rfl longest.nonempty
  | cons char text =>
      rw [List.cons_append, unbounded_from_token (leading_of_longest longest), List.take_left]
      exact unbounded_from_skip ..

theorem unbounded_from_piece (gap : IsGap piece after) :
    unboundedFrom place found 0 (piece ++ after) =
      unboundedFrom (place.afterAll piece) found 0 after := by
  cases gap with
  | blank blank => exact unbounded_from_blank place found after blank
  | @line body _ plain inside ends =>
      have open_ : (body ++ after).head? ≠ some '#' := by
        cases body with
        | nil =>
            rcases ends with rfl | newline
            · exact nofun
            · rw [List.nil_append, newline]
              decide
        | cons next body => exact plain
      have run : runLength (· != '\n') (body ++ after) = body.length := by
        apply run_length_append
        · intro char member
          exact bne_iff_ne.mpr fun same => inside (same ▸ member)
        · intro next member
          rcases ends with rfl | newline
          · cases member
          · rw [newline] at member
            cases member
            rfl
      rw [List.cons_append, unbounded_from_gap (leading_line open_), run, List.take_left]
      exact unbounded_from_skip ..
  | @block body _ first =>
      have split : body ++ ['#', '#'] ++ after = body ++ '#' :: '#' :: after := by simp
      have begins : leading '#' ('#' :: (body ++ ['#', '#']) ++ after) =
          .ok (none, ('#' :: (body ++ ['#', '#'])).length) := by
        rw [List.cons_append, leading_block, split, comment_end_of_first 1 first after,
          List.length_cons, List.length_append, Nat.add_comm 1, Nat.add_right_comm]
        rfl
      change unboundedFrom place found 0 ('#' :: ('#' :: (body ++ ['#', '#']) ++ after)) = _
      rw [unbounded_from_gap begins, List.take_left]
      exact unbounded_from_skip ..

/-- Which characters begin nothing. -/
theorem begins_nothing_iff :
    BeginsNothing char ↔ isBlank char = false ∧ char ≠ '#' ∧ isDigit char = false ∧
      startsName char = false ∧ symbol? char = none := by
  constructor
  · rintro ⟨solid, plain, starts⟩
    have refused {rest : List Char} {kind : TokenKind} {length : Nat} :
        leading char rest ≠ .ok (some kind, length) := fun begins =>
      starts kind _ (leading_described begins).2
    have digit : isDigit char = false := Bool.eq_false_iff.mpr fun digit =>
      @refused [] _ _ (leading_digit digit)
    have name : startsName char = false := Bool.eq_false_iff.mpr fun name =>
      @refused [] _ _ (leading_start name)
    refine ⟨solid, plain, digit, name, Option.eq_none_iff_forall_ne_some.mpr fun kind symbol => ?_⟩
    apply @refused [] kind 0
    rw [leading_other solid plain digit name, symbol, Option.elim]
  · rintro ⟨solid, plain, digit, name, symbol⟩
    refine ⟨solid, plain, fun kind more described => ?_⟩
    have begins := leading_of_alone described
    rw [leading_other solid plain digit name, symbol] at begins
    cases begins

example : BeginsNothing 'é' := begins_nothing_iff.mpr (by decide)

theorem leading_of_nothing {rest : List Char} (nothing : BeginsNothing char) :
    leading char rest = .error 0 := by
  obtain ⟨solid, plain, digit, name, symbol⟩ := begins_nothing_iff.mp nothing
  rw [leading_other solid plain digit name, symbol, Option.elim]

/-- Any other character that is no blank and no comment sign begins a token, whatever follows. -/
theorem leading_of_something (solid : isBlank char = false) (plain : char ≠ '#')
    (something : ¬BeginsNothing char) (rest : List Char) :
    ∃ kind length, leading char rest = .ok (some kind, length) := by
  cases digit : isDigit char with
  | true => exact ⟨_, _, leading_digit digit⟩
  | false =>
      cases name : startsName char with
      | true => exact ⟨_, _, leading_start name⟩
      | false =>
          cases symbol : symbol? char with
          | none =>
              exact absurd (begins_nothing_iff.mpr ⟨solid, plain, digit, name, symbol⟩) something
          | some kind =>
              refine ⟨kind, 0, ?_⟩
              rw [leading_other solid plain digit name, symbol, Option.elim]

/-- Scanning stops where something is to blame. -/
theorem unbounded_from_blames (blames : Blames ahead char blamed) :
    unboundedFrom place found 0 ahead =
      .error (.unexpectedChar char (place.upTo (place.afterAll blamed))) := by
  cases blames with
  | char nothing => exact unbounded_from_blamed (leading_of_nothing nothing)
  | @comment body opened last =>
      rcases comment_end_of_opened 1 opened with ⟨_, same⟩ | ⟨inner, rfl, _⟩
      · have begins : leading '#' ('#' :: body) = .error ('#' :: body).length := by
          rw [leading_block, same, List.length_cons, Nat.add_comm]
          rfl
        rw [unbounded_from_blamed begins, List.take_length]
      · exact absurd List.getLast?_concat last
  | @commentSign body opened =>
      rcases comment_end_of_opened 1 opened with ⟨last, _⟩ | ⟨inner, split, same⟩
      · exact absurd List.getLast?_concat last
      · obtain ⟨rfl, _⟩ := List.append_inj' split rfl
        have begins : leading '#' ('#' :: body ++ ['#']) = .error ('#' :: body).length := by
          rw [List.cons_append, leading_block, same, List.length_cons, Nat.add_comm]
          rfl
        change unboundedFrom place found 0 ('#' :: ('#' :: body ++ ['#'])) = _
        rw [unbounded_from_blamed begins, List.take_left]

/-- A comment to the end of the line goes to the next newline. -/
theorem line_gap (rest : List Char) (plain : rest.head? ≠ some '#') :
    ∃ body after, rest = body ++ after ∧ IsGap ('#' :: body) after := by
  refine ⟨Text.firstLine rest, Text.laterLines rest,
    (Text.first_line_append_later_lines rest).symm,
    .line ?_ (Text.newline_not_in_first_line rest) ?_⟩
  · cases rest with
    | nil => exact nofun
    | cons next rest =>
        rw [Text.firstLine, List.takeWhile_cons]
        split
        · exact plain
        · exact nofun
  · rcases Text.later_lines_start rest with none | ⟨after, newline⟩
    · exact .inl none
    · exact .inr (by rw [newline, List.head?_cons])

/-- Every text that is not empty begins with a gap or with a token, or something is to blame. -/
theorem begins_with (char : Char) (chars : List Char) :
    (∃ piece after, char :: chars = piece ++ after ∧ IsGap piece after) ∨
      (∃ kind text after, char :: chars = text ++ after ∧ IsLongest kind text after) ∨
      ∃ blamed, Blames (char :: chars) char blamed := by
  by_cases blank : isBlank char = true
  · exact .inl ⟨[char], chars, rfl, .blank blank⟩
  by_cases comment : char = '#'
  · subst comment
    by_cases plain : chars.head? = some '#'
    · obtain ⟨body, rfl⟩ := List.head?_eq_some_iff.mp plain
      rcases closed_or_opened body with ⟨inner, after, rfl, first⟩ | opened
      · refine .inl ⟨'#' :: '#' :: inner ++ ['#', '#'], after, by simp, .block first⟩
      · refine .inr (.inr ?_)
        rcases comment_end_of_opened 1 opened with ⟨last, _⟩ | ⟨inner, rfl, _⟩
        · exact ⟨_, .comment opened last⟩
        · exact ⟨_, .commentSign opened⟩
    · obtain ⟨body, after, rfl, gap⟩ := line_gap chars plain
      exact .inl ⟨'#' :: body, after, rfl, gap⟩
  rw [Bool.not_eq_true] at blank
  by_cases nothing : BeginsNothing char
  · exact .inr (.inr ⟨[char], .char nothing⟩)
  · obtain ⟨kind, length, begins⟩ := leading_of_something blank comment nothing chars
    refine .inr (.inl ⟨kind, char :: chars.take length, chars.drop length, ?_,
      (longest_of_leading begins).2⟩)
    rw [List.cons_append, List.take_append_drop]

end

/-! Kinds with common beginnings. -/

/-- The text makes the digits before it a real number: it begins with a point, or with an exponent
that has a digit. -/
def MakesReal (rest : List Char) : Prop :=
  rest.head? = some '.' ∨ ∃ mark sign digit after, (mark = 'e' ∨ mark = 'E') ∧ IsSign sign ∧
    isDigit digit = true ∧ rest = mark :: (sign ++ digit :: after)

theorem exponent_length_pos_iff {chars : List Char} :
    0 < exponentLength chars ↔
      ∃ sign digit after, IsSign sign ∧ isDigit digit = true ∧ chars = sign ++ digit :: after := by
  constructor
  · intro positive
    obtain ⟨count, same⟩ : ∃ count, exponentLength chars = count + 1 :=
      Nat.exists_eq_add_one_of_ne_zero (by omega)
    obtain ⟨sign, power, split, signed, digits⟩ := exponent_digits same
    obtain ⟨digit, others, rfl, isDigit⟩ := first_of_digits digits
    refine ⟨sign, digit, others ++ chars.drop (count + 1), signed, isDigit, ?_⟩
    rw [← List.cons_append, ← List.append_assoc, ← split, List.take_append_drop]
  · rintro ⟨sign, digit, after, signed, isDigit, rfl⟩
    have grows := exponent_length_grows (sign ++ [digit]) after
    have digits : IsDigits [digit] := ⟨List.cons_ne_nil _ _, by simp [isDigit]⟩
    have length := @exponent_length_append sign [digit] [] signed digits fun _ member =>
      nomatch member
    rw [List.append_nil, List.length_singleton] at length
    rw [List.append_assoc, List.singleton_append, length] at grows
    omega

/-- Digits are an integer unless what follows makes them real. -/
theorem number_tail_kind (rest : List Char) :
    ((numberTail rest).1 = .num ↔ MakesReal rest) ∧
      ((numberTail rest).1 = .int ↔ ¬MakesReal rest) := by
  have decided : (MakesReal rest ∧ (numberTail rest).1 = .num) ∨
      (¬MakesReal rest ∧ (numberTail rest).1 = .int) := by
    cases rest with
    | nil => exact .inr ⟨by simp [MakesReal], rfl⟩
    | cons first rest =>
        by_cases point : first = '.'
        · subst point
          exact .inl ⟨.inl rfl, rfl⟩
        · have exponent : MakesReal (first :: rest) ↔
              (first = 'e' ∨ first = 'E') ∧ 0 < exponentLength rest := by
            rw [exponent_length_pos_iff]
            constructor
            · rintro (head | ⟨mark, sign, digit, after, marked, signed, isDigit, same⟩)
              · exact absurd (Option.some.inj head) point
              · obtain ⟨rfl, rfl⟩ := List.cons.inj same
                exact ⟨marked, sign, digit, after, signed, isDigit, rfl⟩
            · rintro ⟨marked, sign, digit, after, signed, isDigit, rfl⟩
              exact .inr ⟨first, sign, digit, after, marked, signed, isDigit, rfl⟩
          rw [numberTail.eq_2 first rest point, exponent]
          split
          · next marked =>
              cases exponentLength rest with
              | zero => exact .inr ⟨by simp, rfl⟩
              | succ count => exact .inl ⟨⟨marked, Nat.succ_pos count⟩, rfl⟩
          · next unmarked => exact .inr ⟨fun both => unmarked both.1, rfl⟩
  rcases decided with ⟨real, kind⟩ | ⟨plain, kind⟩
  · rw [kind]
    simp [real]
  · rw [kind]
    simp [plain]

section

variable {kind : TokenKind} {text after rest : List Char}

/-- A token that begins with digits is real exactly if what follows the digits makes it so. -/
theorem IsLongest.kind_of_digits {digits : List Char} (longest : IsLongest kind text after)
    (whole : text ++ after = digits ++ rest) (read : IsDigits digits)
    (ends : ∀ next ∈ rest.head?, isDigit next = false) :
    (kind = .num ↔ MakesReal rest) ∧ (kind = .int ↔ ¬MakesReal rest) := by
  obtain ⟨char, others, rfl, digit⟩ := first_of_digits read
  cases text with
  | nil => exact absurd rfl longest.nonempty
  | cons first text =>
      rw [List.cons_append, List.cons_append] at whole
      obtain ⟨rfl, same⟩ := List.cons.inj whole
      have begins := leading_of_longest longest
      rw [same, leading_number digit (fun char member => read.2 char (by simp [member])) ends]
        at begins
      rw [Except.ok.injEq, Prod.mk.injEq, Option.some.injEq] at begins
      rw [← begins.1]
      exact number_tail_kind rest

/-- A token that begins with a letter is the whole name there, and a keyword only if that is one. -/
theorem IsLongest.kind_of_word {word : List Char} (longest : IsLongest kind text after)
    (whole : text ++ after = word ++ rest) (read : IsWord word)
    (ends : ∀ next ∈ rest.head?, continuesName next = false) :
    text = word ∧ (kind = .echo ↔ word = ['e', 'c', 'h', 'o']) ∧
      (kind = .ident ↔ word ≠ ['e', 'c', 'h', 'o']) := by
  obtain ⟨char, others, rfl, starts, continues⟩ := read
  cases text with
  | nil => exact absurd rfl longest.nonempty
  | cons first text =>
      rw [List.cons_append, List.cons_append] at whole
      obtain ⟨rfl, same⟩ := List.cons.inj whole
      have begins := leading_of_longest longest
      rw [same, leading_name starts continues ends, Except.ok.injEq, Prod.mk.injEq,
        Option.some.injEq] at begins
      obtain ⟨rfl, length⟩ := begins
      obtain ⟨rfl, _⟩ := List.append_inj same length.symm
      refine ⟨rfl, ?_⟩
      by_cases echo : first :: text = ['e', 'c', 'h', 'o']
      · rw [if_pos (beq_iff_eq.mpr echo)]
        exact ⟨iff_of_true rfl echo, iff_of_false nofun fun other => other echo⟩
      · rw [if_neg fun same => echo (beq_iff_eq.mp same)]
        exact ⟨iff_of_false nofun echo, iff_of_true rfl echo⟩

end

end Scan

end Reckon
