import Reckon.Proofs.Token.Places
import Reckon.Proofs.Token.Spacing

/-!
Writing the tokens of a source again with other blanks between them. Where neighbours are kept apart
by a blank, or the first of them cannot go on in the second, the text scans as the same words.
-/

namespace Reckon

/-- With nothing between the two tokens, the second is not read as more of the first. -/
def Token.MayTouch (first second : Token) : Prop :=
  first.kind.GoesOn → ∀ char ∈ second.text.toList.head?, Scan.continuesName char = false

/-- The text has the texts of the tokens in their order and only blanks between them, at least one
wherever two tokens may not touch. -/
inductive Respaced : List Token → List Char → Prop where
  | none : Respaced [] []
  | token {token : Token} {others : List Token} {gap text : List Char}
      (blank : ∀ char ∈ gap, Scan.isBlank char = true)
      (apart : gap ≠ [] ∨ ∀ next ∈ others.head?, token.MayTouch next)
      (rest : Respaced others text) : Respaced (token :: others) (token.text.toList ++ gap ++ text)

namespace Scan

variable {gap text : List Char}

theorem blank_separates {char : Char} (blank : isBlank char = true) :
    continuesName char = false ∧ char ≠ '.' := by
  simp only [isBlank, Bool.or_eq_true, beq_iff_eq] at blank
  rcases blank with (rfl | rfl) | rfl <;> decide

/-- Neither a blank nor a token that may touch the one before it makes that longer. -/
theorem separates_of_respaced {token : Token} {others : List Token}
    (blank : ∀ char ∈ gap, isBlank char = true)
    (apart : gap ≠ [] ∨ ∀ next ∈ others.head?, token.MayTouch next)
    (rest : Respaced others text) (proper : ∀ other ∈ others, other.IsProper)
    (goesOn : token.kind.GoesOn) : Separates (gap ++ text) := by
  intro char member
  cases gap with
  | cons first gap =>
      cases member
      exact blank_separates (blank char (by simp))
  | nil =>
      cases rest with
      | none => cases member
      | @token next =>
          obtain ⟨inside, described⟩ := proper next (by simp)
          obtain ⟨first, more, same, point⟩ := first_of_described inside described
          have touching := apart.resolve_left (absurd rfl) next rfl goesOn
          rw [same] at member touching
          cases member
          exact ⟨touching char rfl, point⟩

/-- Tokens that are written again are found again, whatever the place. -/
theorem unbounded_from_respaced {body : List Token} (place : Place) (found : List Token)
    (respaced : Respaced body text) (proper : ∀ token ∈ body, token.IsProper) :
    ∃ again stop, unboundedFrom place found 0 text = .ok (found.reverse ++ again ++ [stop]) ∧
      stop.kind = .eof ∧ again.map Token.word = body.map Token.word := by
  induction respaced generalizing place found with
  | none =>
      refine ⟨[], ⟨.eof, "", place.upTo place⟩, ?_, rfl, rfl⟩
      rw [unboundedFrom, List.reverse_cons, List.append_nil]
  | @token token others gap text blank apart rest induction =>
      have here := proper token (by simp)
      have behind : ∀ other ∈ others, other.IsProper := fun other member =>
        proper other (by simp [member])
      obtain ⟨again, stop, scanned, ends, words⟩ :=
        induction ((place.afterAll token.text.toList).afterAll gap)
          (tokenAt place token.kind token.text.toList :: found) behind
      refine ⟨tokenAt place token.kind token.text.toList :: again, stop, ?_, ends, ?_⟩
      · rw [List.append_assoc, unbounded_from_text here.inside here.described
          (separates_of_respaced blank apart rest behind),
          unbounded_from_blanks _ _ _ blank, scanned]
        simp
      · rw [List.map_cons, List.map_cons, words]
        simp only [Token.word, tokenAt, String.ofList_toList]

end Scan

/-- The texts of proper tokens, written again, scan as tokens of the same kinds with the same texts
where nothing is refused for its size. -/
theorem unbounded_tokens_of_respaced {body : List Token} {text : String}
    (respaced : Respaced body text.toList) (proper : ∀ token ∈ body, token.IsProper) :
    ∃ again last, unboundedTokens text = .ok (again ++ [last]) ∧ last.kind = .eof ∧
      again.map Token.word = body.map Token.word :=
  Scan.unbounded_from_respaced .start [] respaced proper

/-- The tokens of a source, without the end of input, stand in it with their texts; and these texts
written again in order, with any blanks between those that have to be kept apart and blanks or
nothing between the others, scan as tokens of the same kinds with the same texts, unless spans do
not reach to the end of what is written. -/
theorem tokens_of_respaced {source : String} {scanned : List Token}
    (scans : tokens source = .ok scanned) :
    ∃ body stop, scanned = body ++ [stop] ∧ stop.kind = .eof ∧
      (∀ token ∈ body, token.kind ≠ .eof ∧
        Text.slice? token.span.start token.span.stop source.toList = some token.text.toList) ∧
      ∀ text : String, Respaced body text.toList →
        (Text.byteSize text.toList ≤ Span.maxOffset →
          ∃ again last, tokens text = .ok (again ++ [last]) ∧ last.kind = .eof ∧
            again.map Token.word = body.map Token.word) ∧
        (Span.maxOffset < Text.byteSize text.toList →
          ∃ error, tokens text = .error (.sourceTooLarge error)) := by
  obtain ⟨body, stop, rfl, proper, ends⟩ := tokens_proper scans
  refine ⟨body, stop, rfl, ends, fun token member => ⟨(proper token member).inside, ?_⟩,
    fun text respaced => ?_⟩
  · exact ((tokens_placed scans).1 token (by simp [member])).slice
  · obtain ⟨again, last, unbounded, ends, words⟩ := unbounded_tokens_of_respaced respaced proper
    exact ⟨fun fits => ⟨again, last, tokens_of_unbounded unbounded fits, ends, words⟩,
      tokens_of_oversized unbounded⟩

/-- The name, which would begin an exponent right behind the number, is kept apart from it, and the
sign stands right behind the name. -/
theorem tokens_of_respaced_sum :
    ∃ body stop again last, tokens "2 e + 5" = .ok (body ++ [stop]) ∧
      tokens "2\t e+5" = .ok (again ++ [last]) ∧ again.map Token.word = body.map Token.word := by
  have scans : tokens "2 e + 5" = .ok
      [⟨.int, "2", ⟨⟨0, 1⟩, ⟨1, 1⟩⟩⟩, ⟨.ident, "e", ⟨⟨2, 3⟩, ⟨1, 3⟩⟩⟩,
        ⟨.plus, "+", ⟨⟨4, 5⟩, ⟨1, 5⟩⟩⟩, ⟨.int, "5", ⟨⟨6, 7⟩, ⟨1, 7⟩⟩⟩,
        ⟨.eof, "", ⟨⟨7, 7⟩, ⟨1, 8⟩⟩⟩] := by decide +kernel
  obtain ⟨body, stop, same, _, _, written⟩ := tokens_of_respaced scans
  have split : [_, _, _, _] ++ [_] = body ++ [stop] := same
  obtain ⟨rfl, _⟩ := List.append_inj' split rfl
  have five := @Respaced.token ⟨.int, "5", ⟨⟨6, 7⟩, ⟨1, 7⟩⟩⟩ [] [] _ nofun (.inr nofun) .none
  have plus := @Respaced.token ⟨.plus, "+", ⟨⟨4, 5⟩, ⟨1, 5⟩⟩⟩ _ [] _ nofun
    (.inr fun _ _ goesOn => absurd goesOn (by decide)) five
  have name := @Respaced.token ⟨.ident, "e", ⟨⟨2, 3⟩, ⟨1, 3⟩⟩⟩ _ [] _ nofun
    (.inr (by rintro _ ⟨⟩ _ _ ⟨⟩; rfl)) plus
  obtain ⟨again, last, scanned, _, words⟩ := (written "2\t e+5"
    (@Respaced.token ⟨.int, "2", ⟨⟨0, 1⟩, ⟨1, 1⟩⟩⟩ _ ['\t', ' '] _
      (List.all_eq_true.mp rfl) (.inl nofun) name)).1 (by decide)
  exact ⟨_, _, again, last, scans, scanned, words⟩

/-- Two numbers kept apart by more blanks than spans reach over do not scan. -/
theorem far_spaced_numbers_do_not_scan :
    ∃ body stop, tokens "1 2" = .ok (body ++ [stop]) ∧ stop.kind = .eof ∧
      ∃ gap, gap ≠ [] ∧ (∀ char ∈ gap, Scan.isBlank char = true) ∧
        Respaced body ('1' :: gap ++ ['2']) ∧
        ∃ error, tokens (String.ofList ('1' :: gap ++ ['2'])) = .error (.sourceTooLarge error) := by
  have scans : tokens "1 2" = .ok [⟨.int, "1", ⟨⟨0, 1⟩, ⟨1, 1⟩⟩⟩,
      ⟨.int, "2", ⟨⟨2, 3⟩, ⟨1, 3⟩⟩⟩, ⟨.eof, "", ⟨⟨3, 3⟩, ⟨1, 4⟩⟩⟩] := by decide +kernel
  obtain ⟨body, stop, same, proper, ends⟩ := tokens_proper scans
  have split : [_, _] ++ [_] = body ++ [stop] := same
  obtain ⟨rfl, _⟩ := List.append_inj' split rfl
  have blank : ∀ char ∈ List.replicate UInt32.size ' ', Scan.isBlank char = true := by
    intro char member
    rw [List.eq_of_mem_replicate member]
    rfl
  have gap : List.replicate UInt32.size ' ' ≠ [] := by
    rw [Ne, List.replicate_eq_nil_iff]
    decide
  have two := @Respaced.token ⟨.int, "2", ⟨⟨2, 3⟩, ⟨1, 3⟩⟩⟩ [] [] _ nofun (.inr nofun) .none
  have respaced := @Respaced.token ⟨.int, "1", ⟨⟨0, 1⟩, ⟨1, 1⟩⟩⟩ _ _ _ blank (.inl gap) two
  refine ⟨_, _, scans, rfl, _, gap, blank, respaced, ?_⟩
  obtain ⟨again, last, unbounded, _, _⟩ := @unbounded_tokens_of_respaced _
    (String.ofList ('1' :: List.replicate UInt32.size ' ' ++ ['2']))
    (by rw [String.toList_ofList]; exact respaced) proper
  refine tokens_of_oversized unbounded (Nat.lt_of_lt_of_le ?_ (Text.length_le_byte_size _))
  rw [String.toList_ofList, List.length_append, List.length_cons, List.length_replicate]
  decide

end Reckon
