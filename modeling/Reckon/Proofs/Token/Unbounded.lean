import Mathlib.Tactic.SplitIfs
import Reckon.Text.Slice
import Reckon.Token.Scan

/-!
Scanning without regard to the size of the text. A scan gives up where a span cannot hold a piece of
the text. One that never gives up is a plain recursion over the pieces, and the two agree exactly as
far as spans reach: to the end of the text, or to the end of what is to blame in it.
-/

namespace Reckon

namespace Place

variable {place stop : Place}

theorem after_all_offset (place : Place) (chars : List Char) :
    (place.afterAll chars).offset = place.offset + Text.byteSize chars := by
  induction chars generalizing place with
  | nil => rfl
  | cons char chars induction =>
      have onward : (place.afterAll (char :: chars)).offset =
          (place.after char).offset + Text.byteSize chars := induction (place.after char)
      rw [onward, Text.byte_size_cons, ← Nat.add_assoc]
      rfl

theorem up_to_of_fits (onward : place.offset ≤ stop.offset)
    (fits : stop.offset ≤ Span.maxOffset) : place.upTo? stop = .ok (place.upTo stop) := by
  rw [upTo?, Span.ofRange, if_neg (by omega), if_neg (by omega)]
  rfl

/-- Where a span can hold what lies between two places, the location is that of the place. -/
theorem up_to_cases (place stop : Place) :
    (stop.offset ≤ Span.maxOffset ∧ place.upTo? stop = .ok (place.upTo stop)) ∨
      ∃ error, place.upTo? stop = .error error := by
  unfold upTo? Span.ofRange
  split_ifs with start fits
  · exact .inr ⟨_, rfl⟩
  · exact .inr ⟨_, rfl⟩
  · exact .inl ⟨Nat.not_lt.mp fits, rfl⟩

end Place

namespace Scan

/-- The token that a text is at a place. -/
def tokenAt (place : Place) (kind : TokenKind) (text : List Char) : Token :=
  ⟨kind, String.ofList text, place.upTo (place.afterAll text)⟩

/-- The scan that refuses nothing for its size. -/
def unboundedFrom (place : Place) (found : List Token) :
    Nat → List Char → Except ScanError (List Token)
  | _, [] => .ok (⟨.eof, "", place.upTo place⟩ :: found).reverse
  | rest + 1, _ :: chars => unboundedFrom place found rest chars
  | 0, char :: chars =>
      match leading char chars with
      | .error length =>
          .error (.unexpectedChar char (place.upTo (place.afterAll (char :: chars.take length))))
      | .ok (kind?, length) =>
          let text := char :: chars.take length
          let found := match kind? with
            | some kind => tokenAt place kind text :: found
            | none => found
          unboundedFrom (place.afterAll text) found length chars

variable {place : Place} {found : List Token} {char : Char} {chars : List Char} {length : Nat}

theorem unbounded_from_token {kind : TokenKind}
    (begins : leading char chars = .ok (some kind, length)) :
    unboundedFrom place found 0 (char :: chars) =
      unboundedFrom (place.afterAll (char :: chars.take length))
        (tokenAt place kind (char :: chars.take length) :: found) length chars := by
  rw [unboundedFrom, begins]

theorem unbounded_from_gap (begins : leading char chars = .ok (none, length)) :
    unboundedFrom place found 0 (char :: chars) =
      unboundedFrom (place.afterAll (char :: chars.take length)) found length chars := by
  rw [unboundedFrom, begins]

theorem unbounded_from_blamed (begins : leading char chars = .error length) :
    unboundedFrom place found 0 (char :: chars) =
      .error (.unexpectedChar char (place.upTo (place.afterAll (char :: chars.take length)))) := by
  rw [unboundedFrom, begins]

/-- How far a scan of a text looks: to the end of the text, or of what is to blame. -/
def reach (size : Nat) : Except ScanError (List Token) → Nat
  | .ok _ => size
  | .error error => error.location.span.stop

/-- The pieces ahead end where the text does. -/
theorem size_ahead (place : Place) (char : Char) (chars : List Char) (length : Nat) :
    (place.afterAll (char :: chars.take length)).offset + Text.byteSize (chars.drop length) =
      place.offset + Text.byteSize (char :: chars) := by
  rw [Place.after_all_offset, Nat.add_assoc, ← Text.byte_size_append, List.cons_append,
    List.take_append_drop]

theorem offset_le_after_all (place : Place) (text : List Char) :
    place.offset ≤ (place.afterAll text).offset := by
  rw [Place.after_all_offset]
  exact Nat.le_add_right _ _

/-- A scan looks no less far than it has come. -/
theorem offset_le_reach (place : Place) (found : List Token) (passed : Nat) (chars : List Char) :
    place.offset ≤ reach (place.offset + Text.byteSize (chars.drop passed))
      (unboundedFrom place found passed chars) := by
  induction chars generalizing place found passed with
  | nil =>
      rw [unboundedFrom]
      exact Nat.le_add_right _ _
  | cons char chars induction =>
      cases passed with
      | succ passed => exact induction place found passed
      | zero =>
          rw [List.drop_zero]
          rcases begins : leading char chars with length | ⟨_ | kind, length⟩
          · rw [unbounded_from_blamed begins]
            exact offset_le_after_all place _
          · rw [unbounded_from_gap begins, ← size_ahead place char chars length]
            exact Nat.le_trans (offset_le_after_all place _) (induction _ _ _)
          · rw [unbounded_from_token begins, ← size_ahead place char chars length]
            exact Nat.le_trans (offset_le_after_all place _) (induction _ _ _)

theorem reach_le_size (place : Place) (found : List Token) (passed : Nat) (chars : List Char) :
    reach (place.offset + Text.byteSize (chars.drop passed))
      (unboundedFrom place found passed chars) ≤
        place.offset + Text.byteSize (chars.drop passed) := by
  induction chars generalizing place found passed with
  | nil =>
      rw [unboundedFrom]
      exact Nat.le_refl _
  | cons char chars induction =>
      cases passed with
      | succ passed => exact induction place found passed
      | zero =>
          rw [List.drop_zero]
          rcases begins : leading char chars with length | ⟨_ | kind, length⟩
          · rw [unbounded_from_blamed begins, ← size_ahead place char chars length]
            exact Nat.le_add_right _ _
          · rw [unbounded_from_gap begins, ← size_ahead place char chars length]
            exact induction _ _ _
          · rw [unbounded_from_token begins, ← size_ahead place char chars length]
            exact induction _ _ _

/-- Where spans reach as far as the scan looks, none of its pieces is refused. -/
theorem tokens_from_of_fits {passed : Nat}
    (fits : reach (place.offset + Text.byteSize (chars.drop passed))
      (unboundedFrom place found passed chars) ≤ Span.maxOffset) :
    tokensFrom place found passed chars = unboundedFrom place found passed chars := by
  induction chars generalizing place found passed with
  | nil =>
      rw [unboundedFrom, List.drop_nil] at fits
      rw [unboundedFrom, tokensFrom]
      exact if_neg (Nat.not_lt.mpr fits)
  | cons char chars induction =>
      cases passed with
      | succ passed => exact induction fits
      | zero =>
          rw [List.drop_zero] at fits
          have holds {length : Nat} := @Place.up_to_of_fits place _
            (offset_le_after_all place (char :: chars.take length))
          rcases begins : leading char chars with length | ⟨_ | kind, length⟩
          · rw [unbounded_from_blamed begins] at fits ⊢
            rw [tokensFrom, begins]
            dsimp only
            rw [holds fits]
          · rw [unbounded_from_gap begins, ← size_ahead place char chars length] at fits
            rw [unbounded_from_gap begins, tokensFrom, begins]
            dsimp only
            rw [holds (Nat.le_trans (offset_le_reach _ _ _ _) fits)]
            exact induction fits
          · rw [unbounded_from_token begins, ← size_ahead place char chars length] at fits
            rw [unbounded_from_token begins, tokensFrom, begins]
            dsimp only
            rw [holds (Nat.le_trans (offset_le_reach _ _ _ _) fits)]
            exact induction fits

/-- Where the scan looks further than spans reach, a piece is refused. -/
theorem tokens_from_of_beyond {passed : Nat}
    (beyond : Span.maxOffset < reach (place.offset + Text.byteSize (chars.drop passed))
      (unboundedFrom place found passed chars)) :
    ∃ error, tokensFrom place found passed chars = .error (.sourceTooLarge error) := by
  induction chars generalizing place found passed with
  | nil =>
      rw [unboundedFrom, List.drop_nil] at beyond
      rw [tokensFrom]
      exact ⟨_, if_pos beyond⟩
  | cons char chars induction =>
      cases passed with
      | succ passed => exact induction beyond
      | zero =>
          rw [List.drop_zero] at beyond
          rcases begins : leading char chars with length | ⟨kind?, length⟩ <;>
            rw [tokensFrom, begins] <;> dsimp only <;>
            rcases place.up_to_cases (place.afterAll (char :: chars.take length)) with
              ⟨fits, held⟩ | ⟨error, refused⟩
          · rw [unbounded_from_blamed begins] at beyond
            exact absurd beyond (Nat.not_lt.mpr fits)
          · exact ⟨error, by rw [refused]⟩
          · rw [held]
            cases kind? with
            | none =>
                rw [unbounded_from_gap begins, ← size_ahead place char chars length] at beyond
                exact induction beyond
            | some kind =>
                rw [unbounded_from_token begins, ← size_ahead place char chars length] at beyond
                exact induction beyond
          · rw [refused]
            cases kind? with
            | none =>
                rw [unbounded_from_gap begins, ← size_ahead place char chars length] at beyond
                dsimp only
                split_ifs with blank
                · exact induction beyond
                · exact ⟨error, rfl⟩
            | some kind => exact ⟨error, rfl⟩

end Scan

/-- The tokens of a source text of any size. -/
def unboundedTokens (source : String) : Except ScanError (List Token) :=
  Scan.unboundedFrom .start [] 0 source.toList

variable {source : String}

theorem tokens_of_fits
    (fits : Scan.reach (Text.byteSize source.toList) (unboundedTokens source) ≤ Span.maxOffset) :
    tokens source = unboundedTokens source := by
  refine Scan.tokens_from_of_fits ?_
  change Scan.reach (0 + _) _ ≤ _
  rwa [Nat.zero_add]

theorem tokens_of_beyond (beyond : Span.maxOffset <
      Scan.reach (Text.byteSize source.toList) (unboundedTokens source)) :
    ∃ error, tokens source = .error (.sourceTooLarge error) := by
  refine Scan.tokens_from_of_beyond ?_
  change _ < Scan.reach (0 + _) _
  rwa [Nat.zero_add]

/-- Where spans reach to the end of the text, nothing is refused for its size. -/
theorem tokens_eq_unbounded (fits : Text.byteSize source.toList ≤ Span.maxOffset) :
    tokens source = unboundedTokens source := by
  refine tokens_of_fits (Nat.le_trans ?_ fits)
  have within := Scan.reach_le_size .start [] 0 source.toList
  change Scan.reach (0 + _) _ ≤ 0 + _ at within
  rwa [Nat.zero_add] at within

/-- A scan has any outcome but a refusal for the size if its pieces lead to it and spans reach as
far. -/
theorem tokens_eq_iff {outcome : Except ScanError (List Token)}
    (other : ∀ error, outcome ≠ .error (.sourceTooLarge error)) :
    tokens source = outcome ↔ unboundedTokens source = outcome ∧
      Scan.reach (Text.byteSize source.toList) outcome ≤ Span.maxOffset := by
  constructor
  · intro scans
    rcases Nat.lt_or_ge Span.maxOffset
      (Scan.reach (Text.byteSize source.toList) (unboundedTokens source)) with beyond | fits
    · obtain ⟨error, refused⟩ := tokens_of_beyond beyond
      exact absurd (scans.symm.trans refused) (other error)
    · rw [tokens_of_fits fits] at scans
      rw [scans] at fits
      exact ⟨scans, fits⟩
  · rintro ⟨scans, fits⟩
    rw [tokens_of_fits (by rwa [scans]), scans]

/-- A text scans if its pieces do and spans reach to its end. -/
theorem tokens_eq_ok_iff {scanned : List Token} :
    tokens source = .ok scanned ↔
      unboundedTokens source = .ok scanned ∧ Text.byteSize source.toList ≤ Span.maxOffset :=
  tokens_eq_iff (by simp)

theorem tokens_of_unbounded {scanned : List Token} (scans : unboundedTokens source = .ok scanned)
    (fits : Text.byteSize source.toList ≤ Span.maxOffset) : tokens source = .ok scanned :=
  tokens_eq_ok_iff.mpr ⟨scans, fits⟩

/-- A text whose pieces scan is refused only for its size. -/
theorem tokens_of_oversized {scanned : List Token} (scans : unboundedTokens source = .ok scanned)
    (beyond : Span.maxOffset < Text.byteSize source.toList) :
    ∃ error, tokens source = .error (.sourceTooLarge error) :=
  tokens_of_beyond (by rwa [scans])

/-- A character is blamed if it is to blame and spans reach to the end of what is blamed. -/
theorem tokens_eq_blamed_iff {char : Char} {location : Location} :
    tokens source = .error (.unexpectedChar char location) ↔
      unboundedTokens source = .error (.unexpectedChar char location) ∧
        location.span.stop ≤ Span.maxOffset :=
  tokens_eq_iff (by simp)

end Reckon
