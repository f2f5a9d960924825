import Reckon.Proofs.Token.Longest
import Reckon.Proofs.Token.Places

/-!
How tokens cover a source. A scan goes from the start of the source over tokens and gaps, one behind
the other, until nothing is left or something is to blame. Where nothing is left, the tokens found
are those of the source, with nothing but gaps between them.
-/

namespace Reckon

/-- The location of a text that stands right behind another. -/
def Location.behind (before text : List Char) : Location :=
  ⟨⟨Text.byteSize before, Text.byteSize before + Text.byteSize text⟩, Text.positionAfter before⟩

theorem Location.behind_eq (before text : List Char) :
    behind before text =
      (Place.start.afterAll before).upTo ((Place.start.afterAll before).afterAll text) := by
  rw [← Place.after_all_append, Place.after_all_start, Place.after_all_start,
    Text.byte_size_append]
  rfl

namespace Scan

/-- Tokens and gaps one behind the other lead from the start of the source to this place: so much
of it is behind, so much is ahead, and these tokens were found. -/
inductive Reaches (source : List Char) : List Char → List Char → List Token → Prop where
  | start : Reaches source [] source []
  | gap {behind piece ahead : List Char} {found : List Token}
      (reached : Reaches source behind (piece ++ ahead) found) (gap : IsGap piece ahead) :
      Reaches source (behind ++ piece) ahead found
  | token {behind text ahead : List Char} {found : List Token} {kind : TokenKind}
      (reached : Reaches source behind (text ++ ahead) found)
      (longest : IsLongest kind text ahead) :
      Reaches source (behind ++ text) ahead
        (found ++ [⟨kind, String.ofList text, .behind behind text⟩])

/-- Gaps one behind the other, up to what comes after. -/
inductive IsLayout : List Char → List Char → Prop where
  | none {after : List Char} : IsLayout [] after
  | more {blanks piece after : List Char} (layout : IsLayout blanks (piece ++ after))
      (gap : IsGap piece after) : IsLayout (blanks ++ piece) after

/-- Where the last of the tokens ends, or the start of the source where there are none. -/
def endOf (found : List Token) : Nat := (found.getLast?.map (·.span.stop)).getD 0

/-- The token stands in the source behind the tokens found before, with nothing but gaps between
the last of them and it. -/
structure Follows (source : List Char) (found : List Token) (token : Token)
    (before blanks after : List Char) : Prop where
  whole : source = before ++ blanks ++ token.text.toList ++ after
  ends : Text.byteSize before = endOf found
  layout : IsLayout blanks (token.text.toList ++ after)
  located : token.location = .behind (before ++ blanks) token.text.toList

section

variable {source behind ahead : List Char} {found : List Token}

theorem Reaches.whole (reached : Reaches source behind ahead found) :
    source = behind ++ ahead := by
  induction reached with
  | start => rfl
  | gap reached gap induction => rw [induction, List.append_assoc]
  | token reached longest induction => rw [induction, List.append_assoc]

/-- What is ahead is all that is left to scan. -/
theorem Reaches.unbounded_from (reached : Reaches source behind ahead found) :
    unboundedFrom .start [] 0 source =
      unboundedFrom (Place.start.afterAll behind) found.reverse 0 ahead := by
  induction reached with
  | start => rfl
  | gap reached gap induction => rw [induction, unbounded_from_piece gap, Place.after_all_append]
  | token reached longest induction =>
      rw [induction, unbounded_from_longest longest, Place.after_all_append, List.reverse_concat,
        tokenAt, ← Location.behind_eq]

theorem Reaches.tokens_at_end (reached : Reaches source source [] found) :
    unboundedFrom .start [] 0 source = .ok (found ++ [⟨.eof, "", .behind source []⟩]) := by
  rw [reached.unbounded_from, unboundedFrom, List.reverse_cons, List.reverse_reverse,
    Location.behind_eq]
  rfl

theorem Reaches.tokens_at_blame {char : Char} {blamed : List Char}
    (reached : Reaches source behind ahead found) (blames : Blames ahead char blamed) :
    unboundedFrom .start [] 0 source = .error (.unexpectedChar char (.behind behind blamed)) := by
  rw [reached.unbounded_from, unbounded_from_blames blames, Location.behind_eq]

/-- Where something is ahead and nothing is to blame, the scan goes on. -/
theorem Reaches.next (reached : Reaches source behind ahead found) (some : ahead ≠ []) :
    (∃ char blamed, Blames ahead char blamed) ∨
      ∃ piece rest more, piece ≠ [] ∧ ahead = piece ++ rest ∧
        Reaches source (behind ++ piece) rest more := by
  cases ahead with
  | nil => exact absurd rfl some
  | cons char chars =>
      rcases begins_with char chars with ⟨piece, rest, split, gap⟩ |
        ⟨kind, text, rest, split, longest⟩ | ⟨blamed, blames⟩
      · rw [split] at reached
        exact .inr ⟨piece, rest, _, gap.nonempty, split, reached.gap gap⟩
      · rw [split] at reached
        exact .inr ⟨text, rest, _, longest.nonempty, split, reached.token longest⟩
      · exact .inl ⟨char, blamed, blames⟩

/-- From every place that is reached the scan goes on to the end of the source or to where something
is to blame. -/
theorem Reaches.onward (reached : Reaches source behind ahead found) :
    (∃ all, Reaches source source [] all) ∨
      ∃ further rest all char blamed, Reaches source further rest all ∧ Blames rest char blamed ∧
        behind <+: further := by
  -- every token and every gap has a character, so less and less is ahead
  induction length : ahead.length using Nat.strong_induction_on generalizing behind ahead found with
  | _ length induction =>
      subst length
      by_cases ended : ahead = []
      · subst ended
        have same := reached.whole
        rw [List.append_nil] at same
        subst same
        exact .inl ⟨found, reached⟩
      · rcases reached.next ended with ⟨char, blamed, blames⟩ | ⟨piece, rest, more, some, rfl, next⟩
        · exact .inr ⟨behind, ahead, found, char, blamed, reached, blames, List.prefix_rfl⟩
        · have shorter : rest.length < (piece ++ rest).length := by
            have positive := List.length_pos_of_ne_nil some
            rw [List.length_append]
            omega
          rcases induction _ shorter next rfl with ended |
            ⟨further, left, all, char, blamed, reached, blames, before⟩
          · exact .inl ended
          · exact .inr ⟨further, left, all, char, blamed, reached, blames,
              (List.prefix_append behind piece).trans before⟩

/-- Behind the last token found there are only gaps. -/
theorem Reaches.layout (reached : Reaches source behind ahead found) :
    ∃ before blanks, behind = before ++ blanks ∧ Text.byteSize before = endOf found ∧
      IsLayout blanks ahead := by
  induction reached with
  | start => exact ⟨[], [], rfl, rfl, .none⟩
  | @gap _ piece _ _ reached gap induction =>
      obtain ⟨before, blanks, rfl, ends, layout⟩ := induction
      exact ⟨before, blanks ++ piece, List.append_assoc .., ends, layout.more gap⟩
  | token reached longest induction =>
      refine ⟨_, [], (List.append_nil _).symm, ?_, .none⟩
      rw [endOf, List.getLast?_concat, Text.byte_size_append]
      rfl

/-- Each token that was found follows those found before it and is the longest one there. -/
theorem Reaches.follows (reached : Reaches source behind ahead found) {front back : List Token}
    {token : Token} (split : found = front ++ token :: back) :
    ∃ before blanks after, Follows source front token before blanks after ∧
      IsLongest token.kind token.text.toList after := by
  induction reached generalizing back with
  | start => cases front <;> cases split
  | gap reached gap induction => exact induction split
  | @token behind text ahead found kind reached longest induction =>
      rcases List.eq_nil_or_concat back with rfl | ⟨others, last, rfl⟩
      · obtain ⟨rfl, same⟩ := List.append_inj' split rfl
        cases same
        obtain ⟨before, blanks, rfl, ends, layout⟩ := reached.layout
        refine ⟨before, blanks, ahead, ⟨?_, ends, ?_, ?_⟩, ?_⟩
        · rw [String.toList_ofList, reached.whole]
          simp only [List.append_assoc]
        · rwa [String.toList_ofList]
        · rw [String.toList_ofList]
        · rwa [String.toList_ofList]
      · rw [List.concat_eq_append, ← List.cons_append, ← List.append_assoc] at split
        exact induction (List.append_inj' split rfl).1

end

end Scan

/-- The tokens of a source are found on the way to its end. -/
theorem tokens_reach_end {source : String} {scanned : List Token}
    (scans : tokens source = .ok scanned) :
    ∃ body, Scan.Reaches source.toList source.toList [] body ∧
      scanned = body ++ [⟨.eof, "", .behind source.toList []⟩] := by
  have unbounded := (tokens_eq_ok_iff.mp scans).1
  rcases Scan.Reaches.start.onward with ⟨body, reached⟩ |
    ⟨behind, ahead, found, char, blamed, reached, blames, _⟩
  · refine ⟨body, reached, ?_⟩
    rw [unboundedTokens, reached.tokens_at_end, Except.ok.injEq] at unbounded
    exact unbounded.symm
  · rw [unboundedTokens, reached.tokens_at_blame blames] at unbounded
    cases unbounded

/-- The tokens of a source that scans tile it. The one for the end of input is the last and the only
one of its kind, and no other is empty or begins before the one before it has ended. Between them
and around them there are only gaps, and each is the longest that any kind describes: digits are
real by what follows them, and a name is a keyword by all of its characters. -/
theorem tokens_tile_source {source : String} {scanned : List Token}
    (scans : tokens source = .ok scanned) :
    (∃ body stop, scanned = body ++ [stop] ∧ stop.kind = .eof ∧
      stop.span = .point (Text.byteSize source.toList) ∧
      (∀ token ∈ body, token.kind ≠ .eof ∧ token.span.start < token.span.stop) ∧
      body.Pairwise fun earlier later => earlier.span.stop ≤ later.span.start) ∧
    ∀ front token back, scanned = front ++ token :: back →
      ∃ before blanks after, Scan.Follows source.toList front token before blanks after ∧
        (token.kind = .eof → after = []) ∧
        (token.kind ≠ .eof → Scan.IsLongest token.kind token.text.toList after ∧
          (∀ digits rest, token.text.toList ++ after = digits ++ rest → Scan.IsDigits digits →
            (∀ next ∈ rest.head?, Scan.isDigit next = false) →
            (token.kind = .num ↔ Scan.MakesReal rest) ∧
              (token.kind = .int ↔ ¬Scan.MakesReal rest)) ∧
          ∀ word rest, token.text.toList ++ after = word ++ rest → Scan.IsWord word →
            (∀ next ∈ rest.head?, Scan.continuesName next = false) →
            token.text.toList = word ∧ (token.kind = .echo ↔ word = ['e', 'c', 'h', 'o']) ∧
              (token.kind = .ident ↔ word ≠ ['e', 'c', 'h', 'o'])) := by
  obtain ⟨body, reached, rfl⟩ := tokens_reach_end scans
  refine ⟨⟨body, _, rfl, rfl, rfl, fun token member => ?_, ?_⟩, fun front token back split => ?_⟩
  · obtain ⟨front, back, split⟩ := List.append_of_mem member
    obtain ⟨before, blanks, after, follows, longest⟩ := reached.follows split
    refine ⟨longest.inside, ?_⟩
    have positive := Text.byte_size_pos longest.nonempty
    rw [Token.span, follows.located]
    exact Nat.lt_add_of_pos_right positive
  · exact (List.pairwise_append.mp (tokens_placed scans).2.ordered).1
  · rcases List.eq_nil_or_concat back with rfl | ⟨others, last, rfl⟩
    · obtain ⟨rfl, same⟩ := List.append_inj' split rfl
      cases same
      obtain ⟨before, blanks, whole, ends, layout⟩ := reached.layout
      refine ⟨before, blanks, [], ⟨?_, ends, layout, ?_⟩, fun _ => rfl, fun other => ?_⟩
      · rw [← whole]
        simp
      · rw [← whole]
        rfl
      · exact absurd rfl other
    · rw [List.concat_eq_append, ← List.cons_append, ← List.append_assoc] at split
      obtain ⟨before, blanks, after, follows, longest⟩ :=
        reached.follows (List.append_inj' split rfl).1
      refine ⟨before, blanks, after, follows, fun other => absurd other longest.inside, fun _ =>
        ⟨longest, fun digits rest whole => longest.kind_of_digits whole,
          fun word rest whole => longest.kind_of_word whole⟩⟩

/-- A half-written exponent is no part of the number before it, and a sign inside a comment does not
close it. -/
theorem half_written_exponent_tiles :
    ∃ scanned, tokens "1e+ ##é# ##2." = .ok scanned ∧
      scanned.map (·.text) = ["1", "e", "+", "2.", ""] ∧
      ∀ front token back, scanned = front ++ token :: back → ∃ before blanks after,
        Scan.Follows "1e+ ##é# ##2.".toList front token before blanks after := by
  have scans : tokens "1e+ ##é# ##2." = .ok
      [⟨.int, "1", ⟨⟨0, 1⟩, ⟨1, 1⟩⟩⟩, ⟨.ident, "e", ⟨⟨1, 2⟩, ⟨1, 2⟩⟩⟩,
        ⟨.plus, "+", ⟨⟨2, 3⟩, ⟨1, 3⟩⟩⟩, ⟨.num, "2.", ⟨⟨12, 14⟩, ⟨1, 12⟩⟩⟩,
        ⟨.eof, "", ⟨⟨14, 14⟩, ⟨1, 14⟩⟩⟩] := by decide +kernel
  refine ⟨_, scans, rfl, fun front token back split => ?_⟩
  obtain ⟨before, blanks, after, follows, _⟩ := (tokens_tile_source scans).2 front token back split
  exact ⟨before, blanks, after, follows⟩

end Reckon
