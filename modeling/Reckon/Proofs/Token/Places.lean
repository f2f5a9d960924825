import Mathlib.Data.List.Induction
import Reckon.Proofs.Token.Text
import Reckon.Text.Slice

/-!
Where tokens stand. The span of a token holds the bytes of its text and nothing else, its position
is counted from what stands before it, and no token begins before the one before it has ended.
-/

namespace Reckon

namespace Text

/-- The position right behind a text. The line is one more than the newlines in the text, and the
column one more than the characters after the last of them. -/
def positionAfter (text : List Char) : Position :=
  ⟨text.count '\n' + 1, (text.reverse.takeWhile (· != '\n')).length + 1⟩

theorem byte_size_pos {text : List Char} (some : text ≠ []) : 0 < byteSize text := by
  cases text with
  | nil => exact absurd rfl some
  | cons char chars =>
      have positive := char.utf8Size_pos
      rw [byte_size_cons]
      omega

theorem length_le_byte_size (text : List Char) : text.length ≤ byteSize text := by
  induction text with
  | nil => exact Nat.le_refl 0
  | cons char chars induction =>
      have positive := char.utf8Size_pos
      rw [byte_size_cons, List.length_cons]
      omega

theorem byte_size_le (text : List Char) : byteSize text ≤ 4 * text.length := by
  induction text with
  | nil => exact Nat.le_refl 0
  | cons char chars induction =>
      have small := char.utf8Size_le_four
      rw [byte_size_cons, List.length_cons]
      omega

theorem byte_size_replicate (count : Nat) (char : Char) :
    byteSize (List.replicate count char) = count * char.utf8Size := by
  induction count with
  | zero => rw [List.replicate_zero, byte_size_nil, Nat.zero_mul]
  | succ count induction =>
      rw [List.replicate_succ, byte_size_cons, induction, Nat.succ_mul, Nat.add_comm]

/-- Two beginnings of a text are the same if they have equally many bytes. -/
theorem eq_of_byte_size {before after others rest : List Char}
    (same : before ++ after = others ++ rest) (sizes : byteSize before = byteSize others) :
    before = others := by
  induction before generalizing others with
  | nil =>
      by_contra differs
      have positive := byte_size_pos fun empty => differs empty.symm
      rw [byte_size_nil] at sizes
      omega
  | cons char before induction =>
      cases others with
      | nil =>
          have positive := byte_size_pos (List.cons_ne_nil char before)
          rw [byte_size_nil] at sizes
          omega
      | cons other others =>
          simp only [List.cons_append, List.cons.injEq] at same
          obtain ⟨rfl, same⟩ := same
          rw [byte_size_cons, byte_size_cons] at sizes
          rw [induction same (by omega)]

/-- Of two beginnings of a text the one with no more bytes is a beginning of the other. -/
theorem beginning_of_byte_size {before after others rest : List Char}
    (same : before ++ after = others ++ rest) (sizes : byteSize before ≤ byteSize others) :
    ∃ middle, others = before ++ middle := by
  rcases List.append_eq_append_iff.mp same with ⟨middle, split, _⟩ | ⟨middle, rfl, _⟩
  · exact ⟨middle, split⟩
  · have nothing : middle = [] := by
      by_contra some
      have positive := byte_size_pos some
      rw [byte_size_append] at sizes
      omega
    exact ⟨[], by rw [nothing, List.append_nil, List.append_nil]⟩

end Text

namespace Place

/-- Going through a text from its start counts its bytes, its newlines and the characters after the
last of these. -/
theorem after_all_start (text : List Char) :
    start.afterAll text = ⟨Text.byteSize text, Text.positionAfter text⟩ := by
  induction text using List.reverseRecOn with
  | nil => rfl
  | append_singleton text char induction =>
      rw [after_all_append, induction]
      by_cases newline : char = '\n'
      · subst newline
        simp [afterAll, after, Text.byte_size_append, Text.positionAfter]
      · simp [afterAll, after, Text.byte_size_append, Text.positionAfter, newline]

end Place

/-- The location of a text that stands in the source. -/
def Location.Holds (source text : List Char) (location : Location) : Prop :=
  ∃ before after, source = before ++ text ++ after ∧ location =
    ⟨⟨Text.byteSize before, Text.byteSize before + Text.byteSize text⟩, Text.positionAfter before⟩

namespace Location

variable {source text : List Char} {location : Location}

theorem Holds.forward (holds : location.Holds source text) :
    location.span.start ≤ location.span.stop := by
  obtain ⟨before, after, _, rfl⟩ := holds
  exact Nat.le_add_right _ _

theorem Holds.start_lt_stop (holds : location.Holds source text) (some : text ≠ []) :
    location.span.start < location.span.stop := by
  obtain ⟨before, after, _, rfl⟩ := holds
  exact Nat.lt_add_of_pos_right (Text.byte_size_pos some)

theorem Holds.inside (holds : location.Holds source text) :
    location.span.stop ≤ Text.byteSize source := by
  obtain ⟨before, after, rfl, rfl⟩ := holds
  rw [Text.byte_size_append, Text.byte_size_append]
  exact Nat.le_add_right _ _

/-- The bytes of the span are the text. -/
theorem Holds.slice (holds : location.Holds source text) :
    Text.slice? location.span.start location.span.stop source = some text := by
  obtain ⟨before, after, rfl, rfl⟩ := holds
  exact Text.slice_append before text after

/-- Two texts of which one ends where the other starts are one text. -/
theorem Holds.through {other : Location} {more : List Char} (holds : location.Holds source text)
    (next : other.Holds source more) (adjacent : location.span.stop = other.span.start) :
    (location.through other).Holds source (text ++ more) := by
  obtain ⟨before, after, same, rfl⟩ := holds
  obtain ⟨front, back, split, rfl⟩ := next
  dsimp only at adjacent
  rw [← Text.byte_size_append] at adjacent
  have whole : (before ++ text) ++ after = front ++ (more ++ back) := by
    rw [← same, split, List.append_assoc]
  obtain rfl := Text.eq_of_byte_size whole adjacent
  refine ⟨before, back, ?_, ?_⟩
  · rw [split]
    simp only [List.append_assoc]
  · simp only [Location.through, Span.merge, Text.byte_size_append, Location.mk.injEq,
      Span.mk.injEq, and_true]
    omega

end Location

/-- Tokens one behind the other. -/
structure Ascending (tokens : List Token) : Prop where
  forward : ∀ token ∈ tokens, token.span.start ≤ token.span.stop
  ordered : tokens.Pairwise fun earlier later => earlier.span.stop ≤ later.span.start

namespace Scan

/-- The tokens found so far, the latest first, stand in the source before the place. -/
structure IsPlaced (source : List Char) (place : Place) (found : List Token) : Prop where
  holds : ∀ token ∈ found, token.location.Holds source token.text.toList
  behind : ∀ token ∈ found, token.span.stop ≤ place.offset
  ordered : found.Pairwise fun later earlier => earlier.span.stop ≤ later.span.start

variable {source behind : List Char} {place next : Place} {found : List Token}

theorem IsPlaced.move (placed : IsPlaced source place found)
    (onward : place.offset ≤ next.offset) : IsPlaced source next found :=
  ⟨placed.holds, fun token member => Nat.le_trans (placed.behind token member) onward,
    placed.ordered⟩

theorem IsPlaced.cons (placed : IsPlaced source place found) {token : Token}
    (holds : token.location.Holds source token.text.toList)
    (starts : place.offset ≤ token.span.start) (stops : token.span.stop ≤ next.offset) :
    IsPlaced source next (token :: found) := by
  have forward := holds.forward
  refine ⟨?_, ?_, ?_⟩
  · intro other member
    rcases List.mem_cons.mp member with rfl | member
    · exact holds
    · exact placed.holds other member
  · intro other member
    rcases List.mem_cons.mp member with rfl | member
    · exact stops
    · have before := placed.behind other member
      change token.span.start ≤ token.span.stop at forward
      omega
  · rw [List.pairwise_cons]
    exact ⟨fun other member => Nat.le_trans (placed.behind other member) starts, placed.ordered⟩

theorem up_to_holds {text rest : List Char} (whole : source = behind ++ text ++ rest)
    (here : place = Place.start.afterAll behind) :
    (place.upTo (place.afterAll text)).Holds source text := by
  refine ⟨behind, rest, whole, ?_⟩
  rw [here, ← Place.after_all_append, Place.after_all_start, Place.after_all_start,
    Text.byte_size_append]
  rfl

/-- Scanning keeps tokens in their places. -/
theorem unbounded_from_placed {passed : Nat} {chars : List Char} {scanned : List Token}
    (same : unboundedFrom place found passed chars = .ok scanned) (whole : source = behind ++ chars)
    (here : place = Place.start.afterAll (behind ++ chars.take passed))
    (placed : IsPlaced source place found) :
    ∃ last, IsPlaced source last scanned.reverse := by
  induction chars generalizing place found passed behind with
  | nil =>
      simp only [unboundedFrom, Except.ok.injEq] at same
      rw [List.take_nil, List.append_nil] at here
      rw [← same, List.reverse_reverse]
      have split : source = behind ++ [] ++ [] := by simpa using whole
      have holds := up_to_holds split here
      exact ⟨place, placed.cons holds (Nat.le_refl _) (Nat.le_refl _)⟩
  | cons char chars induction =>
      have further : source = behind ++ [char] ++ chars := by simpa using whole
      cases passed with
      | succ passed =>
          rw [List.take_succ_cons] at here
          exact induction same further (by simpa using here) placed
      | zero =>
          rw [List.take_zero, List.append_nil] at here
          have onward : ∀ length, place.afterAll (char :: chars.take length) =
              Place.start.afterAll (behind ++ [char] ++ chars.take length) := by
            intro length
            rw [here, ← Place.after_all_append, List.append_assoc, List.singleton_append]
          rcases begins : leading char chars with length | ⟨_ | kind, length⟩
          · rw [unbounded_from_blamed begins] at same
            cases same
          · rw [unbounded_from_gap begins] at same
            exact induction same further (onward length)
              (placed.move (offset_le_after_all place _))
          · rw [unbounded_from_token begins] at same
            have split : source = behind ++ (char :: chars.take length) ++ chars.drop length := by
              rw [whole, List.append_assoc, List.cons_append, List.take_append_drop]
            have holds := up_to_holds split here
            refine induction same further (onward length) (placed.cons ?_ ?_ ?_)
            · simpa only [tokenAt, String.toList_ofList] using holds
            · exact Nat.le_refl _
            · exact Nat.le_refl _

end Scan

/-- Every token of a source has its text, its span and its position in it, and the tokens come in
the order of their spans. -/
theorem tokens_placed {source : String} {scanned : List Token}
    (same : tokens source = .ok scanned) :
    (∀ token ∈ scanned, token.location.Holds source.toList token.text.toList) ∧
      Ascending scanned := by
  have nothing : Scan.IsPlaced source.toList .start [] := ⟨by simp, by simp, .nil⟩
  have whole : source.toList = [] ++ source.toList := rfl
  obtain ⟨last, placed⟩ := Scan.unbounded_from_placed (tokens_eq_ok_iff.mp same).1 whole rfl nothing
  have holds : ∀ token ∈ scanned, token.location.Holds source.toList token.text.toList :=
    fun token member => placed.holds token (List.mem_reverse.mpr member)
  refine ⟨holds, fun token member => (holds token member).forward, ?_⟩
  exact List.pairwise_reverse.mp placed.ordered

end Reckon
