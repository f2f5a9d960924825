import Reckon.Proofs.Token.Places
import Reckon.Proofs.Tree.Unlocated

/-!
Moving what stands in a text. Behind a text of whole lines everything stands as many bytes and as
many lines further on as that text has, and in the columns it would have without the text.
-/

namespace Reckon

/-- The bytes and the lines by which something is moved on. -/
structure Shift where
  bytes : Nat
  lines : Nat
deriving DecidableEq

/-- How far a text moves what stands behind it. -/
def Shift.over (text : List Char) : Shift := ⟨Text.byteSize text, text.count '\n'⟩

/-- The text is empty or ends with a newline. -/
def Text.WholeLines (text : List Char) : Prop := ∀ last ∈ text.getLast?, last = '\n'

namespace Text

theorem whole_lines_tail {char : Char} {chars : List Char} (whole : WholeLines (char :: chars)) :
    WholeLines chars := by
  cases chars with
  | nil => exact fun _ member => nomatch member
  | cons next chars => exact whole

/-- Behind whole lines a line begins. -/
theorem position_after_whole_lines {text : List Char} (whole : WholeLines text) :
    positionAfter text = ⟨text.count '\n' + 1, 1⟩ := by
  cases ends : text.getLast? with
  | none =>
      rw [List.getLast?_eq_none_iff] at ends
      subst ends
      rfl
  | some last =>
      obtain rfl := whole last ends
      rw [← List.head?_reverse] at ends
      obtain ⟨others, same⟩ := List.head?_eq_some_iff.mp ends
      rw [positionAfter, same]
      rfl

end Text

namespace Span

def moved (shift : Shift) (span : Span) : Span :=
  ⟨span.start + shift.bytes, span.stop + shift.bytes⟩

theorem merge_moved (shift : Shift) (first last : Span) :
    (first.moved shift).merge (last.moved shift) = (first.merge last).moved shift := by
  simp only [merge, moved, Nat.add_min_add_right, Nat.add_max_add_right]

end Span

def Position.moved (shift : Shift) (position : Position) : Position :=
  ⟨position.line + shift.lines, position.column⟩

namespace Location

def moved (shift : Shift) (location : Location) : Location :=
  ⟨location.span.moved shift, location.position.moved shift⟩

theorem through_moved (shift : Shift) (first last : Location) :
    (first.moved shift).through (last.moved shift) = (first.through last).moved shift := by
  rw [through, through, moved, moved, moved, Span.merge_moved]

end Location

namespace Place

def moved (shift : Shift) (place : Place) : Place :=
  ⟨place.offset + shift.bytes, place.position.moved shift⟩

theorem after_moved (shift : Shift) (place : Place) (char : Char) :
    (place.moved shift).after char = (place.after char).moved shift := by
  simp only [after, moved, Position.moved]
  split <;> simp only [Place.mk.injEq, Position.mk.injEq, and_true] <;> omega

theorem after_all_moved (shift : Shift) (place : Place) (chars : List Char) :
    (place.moved shift).afterAll chars = (place.afterAll chars).moved shift := by
  induction chars generalizing place with
  | nil => rfl
  | cons char chars induction =>
      change ((place.moved shift).after char).afterAll chars =
        ((place.after char).afterAll chars).moved shift
      rw [after_moved, induction]

theorem up_to_moved (shift : Shift) (place stop : Place) :
    (place.moved shift).upTo (stop.moved shift) = (place.upTo stop).moved shift := rfl

/-- Going through whole lines moves the start over them. -/
theorem after_whole_lines {text : List Char} (whole : Text.WholeLines text) :
    start.afterAll text = start.moved (.over text) := by
  rw [after_all_start, Text.position_after_whole_lines whole]
  simp only [moved, start, Shift.over, Position.start, Position.moved, Nat.zero_add, Nat.add_comm]

end Place

namespace Token

def moved (shift : Shift) (token : Token) : Token :=
  { token with location := token.location.moved shift }

/-- Tokens that are moved together stay as far from each other. -/
theorem adjacent_moved (shift : Shift) (token next : Token) :
    (token.moved shift).isAdjacent (next.moved shift) = token.isAdjacent next := by
  rw [Bool.eq_iff_iff]
  simp only [isAdjacent, span, moved, Location.moved, Span.moved, beq_iff_eq]
  omega

end Token

namespace Tree

mutual

/-- The tree with every location in it moved. -/
def moved (shift : Shift) : Tree → Tree
  | .node production pieces location =>
      .node production (movedPieces shift pieces) (location.moved shift)
termination_by structural tree => tree

def movedPieces (shift : Shift) : List (Piece Tree) → List (Piece Tree)
  | [] => []
  | .token text :: rest => .token text :: movedPieces shift rest
  | .tree tree :: rest => .tree (moved shift tree) :: movedPieces shift rest
termination_by structural pieces => pieces

end

theorem moved_pieces_eq_map (shift : Shift) (pieces : List (Piece Tree)) :
    movedPieces shift pieces = pieces.map (Piece.map (moved shift)) := by
  induction pieces with
  | nil => rfl
  | cons piece pieces induction =>
      cases piece <;> simp only [movedPieces, List.map_cons, Piece.map, induction]

@[simp] theorem moved_node (shift : Shift) (production : Production) (pieces : List (Piece Tree))
    (location : Location) : (Tree.node production pieces location).moved shift =
      .node production (pieces.map (Piece.map (moved shift))) (location.moved shift) := by
  rw [moved, moved_pieces_eq_map]

@[simp] theorem moved_location (shift : Shift) (tree : Tree) :
    (tree.moved shift).location = tree.location.moved shift := by
  cases tree
  rw [moved_node]
  rfl

/-- A moved tree has the structure it had. -/
theorem moved_alike (shift : Shift) (tree : Tree) : (tree.moved shift).Alike tree := by
  induction tree with
  | node production pieces location inside =>
      rw [moved_node]
      apply alike_node
      rw [AlikePieces, List.map_map]
      apply List.map_congr_left
      intro piece member
      cases piece with
      | token text => rfl
      | tree inner =>
          have same : (inner.moved shift).unlocated = inner.unlocated := inside inner member
          rw [Function.comp_apply, Piece.map, Piece.map, Piece.map, same]

end Tree

end Reckon
