import Reckon.Proofs.Grammar.Parallel
import Reckon.Proofs.Source.Lines
import Reckon.Proofs.Token.Spacing

/-!
The positions of errors. Reading leaves an error at one of the tokens it was given, and the line
table gives it the position of that token again, unless the number of a line or a column does not
fit into 32 bits. It always does for a token that is not the end of input.
-/

namespace Reckon

namespace Token

variable {source : String} {scanned : List Token} {token : Token}

theorem position_eq (scans : tokens source = .ok scanned) (member : token ∈ scanned)
    (fits : token.location.position.Fits) :
    (Lines.ofString source).position token.span.start = token.location.position :=
  ((tokens_placed scans).1 token member).position_eq (tokens_eq_ok_iff.mp scans).2 fits

/-- A proper token has a character, and so begins before the last offset that spans have. -/
theorem IsProper.early (proper : token.IsProper) (scans : tokens source = .ok scanned)
    (member : token ∈ scanned) : token.span.start < Span.maxOffset := by
  have holds := (tokens_placed scans).1 token member
  obtain ⟨first, rest, text, _⟩ := Scan.first_of_described proper.inside proper.described
  have some : token.text.toList ≠ [] := by
    rw [text]
    exact List.cons_ne_nil _ _
  exact Nat.lt_of_lt_of_le (holds.start_lt_stop some)
    (Nat.le_trans holds.inside (tokens_eq_ok_iff.mp scans).2)

theorem IsProper.position_eq (proper : token.IsProper) (scans : tokens source = .ok scanned)
    (member : token ∈ scanned) :
    (Lines.ofString source).position token.span.start = token.location.position :=
  ((tokens_placed scans).1 token member).position_of_lt (proper.early scans member)

end Token

theorem joined_texts {sign other digits more : String} (first : sign = other)
    (second : digits = more) : sign ++ digits = other ++ more := by
  rw [first, second]

/-- Nothing but a token of the list is taken for itself. -/
def Correspondence.among (scanned : List Token) : Correspondence where
  tokens token other := token = other ∧ token ∈ scanned
  texts := (· = ·)
  trees := (· = ·)
  locations := (· = ·)
  kind := fun ⟨same, _⟩ => congrArg Token.kind same
  text := fun ⟨same, _⟩ => congrArg Token.text same
  location := fun ⟨same, _⟩ => congrArg Token.location same
  placed same := congrArg Tree.location same
  symbol _ := rfl
  joined := @joined_texts
  point := fun ⟨same, _⟩ => by rw [same]
  through := congrArg₂ Location.through
  node production pieces others location other all same := by
    have equal : List.Forall₂ (· = ·) pieces others := all.imp fun _ _ alike => by
      cases alike with
      | tree same => rw [same]
      | token same => rw [same]
    rw [List.forall₂_eq_eq_eq] at equal
    rw [equal, same]

/-- Reading blames one of the tokens that it is given. -/
theorem Reading.error_at_token {scanned : List Token} {error : ParseError}
    (failed : Reading.start.run scanned = .error error) :
    ∃ token ∈ scanned, error.location = token.location := by
  let like := Correspondence.among scanned
  have start : Reading.start.Like like .start := ⟨.nil, .start⟩
  have all : List.Forall₂ like.tokens scanned scanned :=
    List.forall₂_same.mpr fun token member => ⟨rfl, member⟩
  obtain ⟨other, outcome⟩ : ∃ other, SameOutcome like (Reading.start.run scanned) other :=
    ⟨_, Reading.run_like start all (by simp [Reading.start, Stage.heldSign]) rfl⟩
  generalize Reading.start.run scanned = left at failed outcome
  cases outcome with
  | ok => cases failed
  | unexpected _ blamed =>
      cases failed
      exact ⟨_, blamed.2, rfl⟩
  | unclosedParen _ blamed =>
      cases failed
      exact ⟨_, blamed.2, rfl⟩
  | detachedSign blamed =>
      cases failed
      exact ⟨_, blamed.2, rfl⟩
  | repeatedArgument blamed =>
      cases failed
      exact ⟨_, blamed.2, rfl⟩
  | repeats renamed => exact absurd (fun _ _ alike => like.text alike) renamed

/-- A source that is refused only for its size is refused before it is read. -/
theorem parse_of_oversized {source : String} {scanned : List Token}
    (scans : unboundedTokens source = .ok scanned)
    (beyond : Span.maxOffset < Text.byteSize source.toList) :
    ∃ error, parse source = .error error ∧ error.code = .sourceTooLarge := by
  obtain ⟨error, refused⟩ := tokens_of_oversized scans beyond
  exact ⟨_, parse_of_scan_error refused, rfl⟩

/-- Reading the tokens of a source fails as reading the source does, but for the position. -/
theorem run_of_parse_error {source : String} {scanned : List Token} {error : ParseError}
    (scans : tokens source = .ok scanned) (failed : parse source = .error error) :
    ∃ raw, Reading.start.run scanned = .error raw ∧ error = raw.located (.ofString source) := by
  rw [parse_of_tokens scans, parseTokens] at failed
  cases run : Reading.start.run scanned with
  | error raw =>
      rw [run] at failed
      cases failed
      exact ⟨raw, rfl, rfl⟩
  | ok last =>
      rw [run] at failed
      cases failed

section

variable {source : String} {scanned : List Token} {error : ParseError} {token : Token}

/-- An error at a token keeps the position of the token. -/
theorem located_at_token (scans : tokens source = .ok scanned) (member : token ∈ scanned)
    (fits : token.location.position.Fits) (place : error.location = token.location) :
    error.located (.ofString source) = error := by
  refine ParseError.located_eq_self ?_
  rw [place]
  exact Token.position_eq scans member fits

theorem located_at_proper_token (scans : tokens source = .ok scanned) (member : token ∈ scanned)
    (proper : token.IsProper) (place : error.location = token.location) :
    error.located (.ofString source) = error := by
  refine ParseError.located_eq_self ?_
  rw [place]
  exact proper.position_eq scans member

end

end Reckon
