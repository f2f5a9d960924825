import Mathlib.Data.List.TakeWhile
import Reckon.Proofs.Token.Unbounded

/-!
The texts of tokens. Every kind of token has its own set of texts, and a text that scans gives
tokens with texts of their kinds and then the one token for the end of input.
-/

namespace Reckon

namespace Scan

/-- One decimal digit or more. -/
def IsDigits (chars : List Char) : Prop := chars ≠ [] ∧ ∀ char ∈ chars, isDigit char = true

def IsSign (chars : List Char) : Prop := chars = [] ∨ chars = ['+'] ∨ chars = ['-']

/-- Digits with a point behind them and then any digits, or with an exponent of at least one
digit. -/
inductive IsReal : List Char → Prop where
  | point {whole fraction : List Char} (digits : IsDigits whole)
      (rest : ∀ char ∈ fraction, isDigit char = true) : IsReal (whole ++ '.' :: fraction)
  | exponent {whole sign power : List Char} {mark : Char} (digits : IsDigits whole)
      (marked : mark = 'e' ∨ mark = 'E') (signed : IsSign sign) (rest : IsDigits power) :
      IsReal (whole ++ mark :: (sign ++ power))

/-- An identifier, the keyword included. -/
def IsWord (chars : List Char) : Prop :=
  ∃ first rest, chars = first :: rest ∧ startsName first = true ∧
    ∀ char ∈ rest, continuesName char = true

/-- An identifier that is no keyword. -/
def IsName (text : String) : Prop := IsWord text.toList ∧ text ≠ "echo"

theorem letters_are_name {count : Nat} (some : 0 < count) :
    IsName (String.ofList (List.replicate count 'a')) := by
  obtain ⟨count, rfl⟩ := Nat.exists_eq_add_one.mpr some
  refine ⟨⟨'a', List.replicate count 'a', String.toList_ofList, by decide, fun char member => ?_⟩,
    fun keyword => ?_⟩
  · rw [List.eq_of_mem_replicate member]
    decide
  · cases String.ofList_injective keyword

theorem first_of_digits {chars : List Char} (digits : IsDigits chars) :
    ∃ first rest, chars = first :: rest ∧ isDigit first = true := by
  cases chars with
  | nil => exact absurd rfl digits.1
  | cons first rest => exact ⟨first, rest, rfl, digits.2 first (by simp)⟩

theorem first_of_real {chars : List Char} (real : IsReal chars) :
    ∃ first rest, chars = first :: rest ∧ isDigit first = true := by
  cases real with
  | point digits =>
      obtain ⟨first, rest, rfl, digit⟩ := first_of_digits digits
      exact ⟨first, _, rfl, digit⟩
  | exponent digits =>
      obtain ⟨first, rest, rfl, digit⟩ := first_of_digits digits
      exact ⟨first, _, rfl, digit⟩

theorem take_run (belongs : Char → Bool) (chars : List Char) :
    chars.take (runLength belongs chars) = chars.takeWhile belongs := by
  have whole := List.takeWhile_append_dropWhile (p := belongs) (l := chars)
  calc
    chars.take (runLength belongs chars) =
        (chars.takeWhile belongs ++ chars.dropWhile belongs).take (runLength belongs chars) := by
      rw [whole]
    _ = chars.takeWhile belongs := List.take_left' rfl

theorem belongs_of_mem_run {belongs : Char → Bool} {chars : List Char} {char : Char}
    (member : char ∈ chars.take (runLength belongs chars)) : belongs char = true := by
  rw [take_run] at member
  exact List.mem_takeWhile_imp member

theorem digits_of_run {chars : List Char} {length : Nat}
    (run : runLength isDigit chars = length + 1) : IsDigits (chars.take (length + 1)) := by
  rw [← run]
  refine ⟨?_, fun char member => belongs_of_mem_run member⟩
  intro empty
  rw [take_run] at empty
  simp [runLength, empty] at run

theorem exponent_digits {chars : List Char} {length : Nat}
    (run : exponentLength chars = length + 1) :
    ∃ sign power, chars.take (length + 1) = sign ++ power ∧ IsSign sign ∧ IsDigits power := by
  cases chars with
  | nil => simp [exponentLength] at run
  | cons first rest =>
      simp only [exponentLength] at run
      split_ifs at run with signed
      · cases digits : runLength isDigit rest with
        | zero => simp [digits] at run
        | succ count =>
            have same : length = count + 1 := by
              simp only [digits] at run
              omega
            subst same
            refine ⟨[first], rest.take (count + 1), rfl, ?_, digits_of_run digits⟩
            rcases signed with rfl | rfl
            · exact .inr (.inl rfl)
            · exact .inr (.inr rfl)
      · exact ⟨[], (first :: rest).take (length + 1), rfl, .inl rfl, digits_of_run run⟩

/-- Digits stay an integer, or what follows them makes them real. -/
theorem number_tail_real {whole : List Char} (digits : IsDigits whole) (rest : List Char) :
    (numberTail rest = (.int, 0)) ∨
      ∃ length, numberTail rest = (.num, length) ∧ IsReal (whole ++ rest.take length) := by
  cases rest with
  | nil => exact .inl rfl
  | cons first rest =>
      by_cases point : first = '.'
      · subst point
        refine .inr ⟨_, rfl, ?_⟩
        rw [Nat.add_comm, List.take_succ_cons]
        exact .point digits fun char member => belongs_of_mem_run member
      · rw [numberTail.eq_2 first rest point]
        split_ifs with marked
        · cases run : exponentLength rest with
          | zero => exact .inl rfl
          | succ length =>
              obtain ⟨sign, power, same, signed, powered⟩ := exponent_digits run
              refine .inr ⟨length + 2, rfl, ?_⟩
              rw [List.take_succ_cons, same]
              exact .exponent digits marked signed powered
        · exact .inl rfl

end Scan

namespace TokenKind

/-- The texts that tokens of a kind have. -/
def Describes (kind : TokenKind) (text : String) : Prop :=
  match kind with
  | .int => Scan.IsDigits text.toList
  | .num => Scan.IsReal text.toList
  | .ident => Scan.IsName text
  | .eof => text = ""
  | other => other.symbol? = some text

end TokenKind

namespace Token

/-- A token of a text, as opposed to the end of the text. -/
structure IsProper (token : Token) : Prop where
  inside : token.kind ≠ .eof
  described : token.kind.Describes token.text

end Token

namespace Scan

theorem leading_blank {char : Char} {rest : List Char} (blank : isBlank char = true) :
    leading char rest = .ok (none, runLength isBlank rest) := if_pos blank

theorem leading_block (body : List Char) :
    leading '#' ('#' :: body) = (commentEnd 1 body).map fun length => (none, length) := rfl

theorem leading_line {rest : List Char} (plain : rest.head? ≠ some '#') :
    leading '#' rest = .ok (none, runLength (· != '\n') rest) := by
  unfold leading
  rw [if_neg (by decide), if_pos rfl]
  split
  · exact absurd rfl plain
  · rfl

theorem symbol_described {char : Char} {kind : TokenKind} (symbol : symbol? char = some kind) :
    kind ≠ .eof ∧ kind.Describes (String.ofList [char]) := by
  unfold symbol? at symbol
  split at symbol <;> cases symbol <;> exact ⟨by decide, rfl⟩

theorem leading_described {char : Char} {chars : List Char} {kind : TokenKind} {length : Nat}
    (begins : leading char chars = .ok (some kind, length)) :
    kind ≠ .eof ∧ kind.Describes (String.ofList (char :: chars.take length)) := by
  unfold leading at begins
  split_ifs at begins with blank comment digit name
  · cases begins
  · split at begins
    · next body =>
        cases closed : commentEnd 1 body <;> simp [closed, Except.map] at begins
    · cases begins
  · have digits : IsDigits (char :: chars.take (runLength isDigit chars)) := by
      refine ⟨List.cons_ne_nil _ _, fun other member => ?_⟩
      rcases List.mem_cons.mp member with rfl | member
      · exact digit
      · exact belongs_of_mem_run member
    rcases number_tail_real digits (chars.drop (runLength isDigit chars)) with
      same | ⟨more, same, real⟩
    · simp only [same, Nat.add_zero, Except.ok.injEq, Prod.mk.injEq, Option.some.injEq] at begins
      obtain ⟨rfl, rfl⟩ := begins
      exact ⟨by decide, by simpa only [TokenKind.Describes, String.toList_ofList] using digits⟩
    · simp only [same, Except.ok.injEq, Prod.mk.injEq, Option.some.injEq] at begins
      obtain ⟨rfl, rfl⟩ := begins
      refine ⟨by decide, ?_⟩
      simpa only [TokenKind.Describes, String.toList_ofList, List.take_add, List.cons_append]
        using real
  · simp only [Except.ok.injEq, Prod.mk.injEq, Option.some.injEq] at begins
    obtain ⟨same, rfl⟩ := begins
    split_ifs at same with echo
    · subst same
      rw [beq_iff_eq] at echo
      exact ⟨by decide, by rw [echo]; rfl⟩
    · subst same
      refine ⟨by decide, ⟨char, _, by rw [String.toList_ofList], name, fun other member =>
        belongs_of_mem_run member⟩, fun same => echo ?_⟩
      rw [beq_iff_eq, ← String.toList_ofList (l := _ :: _), same]
      rfl
  · split at begins
    · next symbol =>
        cases begins
        exact symbol_described symbol
    · cases begins

/-- Scanning adds proper tokens to those found before, and at last the end of input. -/
theorem unbounded_from_proper {place : Place} {found : List Token} {passed : Nat}
    {chars : List Char} {scanned : List Token}
    (same : unboundedFrom place found passed chars = .ok scanned) :
    ∃ body stop, scanned = found.reverse ++ body ++ [stop] ∧ (∀ token ∈ body, token.IsProper) ∧
      stop.kind = .eof := by
  induction chars generalizing place found passed with
  | nil =>
      simp only [unboundedFrom, List.reverse_cons, Except.ok.injEq] at same
      exact ⟨[], ⟨.eof, "", place.upTo place⟩, by simp [← same], by simp, rfl⟩
  | cons char chars induction =>
      cases passed with
      | succ passed => exact induction same
      | zero =>
          rcases begins : leading char chars with length | ⟨_ | kind, length⟩
          · rw [unbounded_from_blamed begins] at same
            cases same
          · rw [unbounded_from_gap begins] at same
            exact induction same
          · rw [unbounded_from_token begins] at same
            obtain ⟨body, stop, split, proper, ends⟩ := induction same
            have described := leading_described begins
            refine ⟨tokenAt place kind (char :: chars.take length) :: body, stop, ?_, ?_, ends⟩
            · simpa only [List.reverse_cons, List.append_assoc, List.singleton_append]
                using split
            · intro token member
              rcases List.mem_cons.mp member with rfl | member
              · exact ⟨described.1, described.2⟩
              · exact proper token member

end Scan

/-- What scanning a text gives: proper tokens and then the one for the end of input. -/
theorem tokens_proper {source : String} {scanned : List Token}
    (same : tokens source = .ok scanned) :
    ∃ body stop, scanned = body ++ [stop] ∧ (∀ token ∈ body, token.IsProper) ∧
      stop.kind = .eof := by
  obtain ⟨body, stop, split, proper, ends⟩ :=
    Scan.unbounded_from_proper (tokens_eq_ok_iff.mp same).1
  exact ⟨body, stop, by simpa only [List.reverse_nil, List.nil_append] using split, proper, ends⟩

section

variable {source : String} {before rest : List Token} {token : Token}

theorem proper_before (same : tokens source = .ok (before ++ token :: rest)) :
    ∀ earlier ∈ before, earlier.IsProper := by
  obtain ⟨body, stop, split, proper, _⟩ := tokens_proper same
  have front := congrArg List.dropLast split
  rw [List.dropLast_append_of_ne_nil (List.cons_ne_nil _ _), List.dropLast_concat] at front
  exact fun earlier member => proper earlier (front ▸ List.mem_append_left _ member)

theorem last_is_end (same : tokens source = .ok (before ++ [token])) : token.kind = .eof := by
  obtain ⟨_, stop, split, _, ends⟩ := tokens_proper same
  rw [(List.append_inj' split rfl).2 |> List.singleton_inj.mp]
  exact ends

end

end Reckon
