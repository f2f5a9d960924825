/-!
Places in a source text. Offsets count bytes of UTF-8, the end of a span being no part of it. Lines
and columns count from one, and columns count characters. Offsets, lines and columns have 32 bits.
-/

namespace Reckon

structure Span where
  start : Nat
  stop : Nat
deriving DecidableEq, Inhabited, Repr

inductive SpanError where
  | startTooLarge (offset : Nat)
  | endTooLarge (offset : Nat)
deriving DecidableEq, Repr

namespace SpanError

def message : SpanError → String
  | .startTooLarge offset => s!"span start {offset} exceeds u32::MAX"
  | .endTooLarge offset => s!"span end {offset} exceeds u32::MAX"

end SpanError

namespace Span

def maxOffset : Nat := UInt32.size - 1

def point (offset : Nat) : Span := ⟨offset, offset⟩

def unknown : Span := point 0

def ofRange (start stop : Nat) : Except SpanError Span :=
  if maxOffset < start then .error (.startTooLarge start)
  else if maxOffset < stop then .error (.endTooLarge stop)
  else .ok ⟨start, stop⟩

def length (span : Span) : Nat := span.stop - span.start

def isEmpty (span : Span) : Bool := span.start == span.stop

def merge (left right : Span) : Span := ⟨min left.start right.start, max left.stop right.stop⟩

def text (span : Span) : String := s!"{span.start}..{span.stop}"

end Span

structure Position where
  line : Nat
  column : Nat
deriving DecidableEq, Inhabited, Repr

namespace Position

def start : Position := ⟨1, 1⟩

/-- One more than a count, in 32 bits: a count beyond them is taken for the last but one. -/
def ordinal (count : Nat) : Nat :=
  ((if count < UInt32.size then UInt32.ofNat count else UInt32.ofNat (UInt32.size - 2)) + 1).toNat

theorem ordinal_of_lt {count : Nat} (fits : count < Span.maxOffset) :
    ordinal count = count + 1 := by
  have within : count + 1 < UInt32.size := by
    simp only [Span.maxOffset] at fits
    omega
  rw [ordinal, if_pos (Nat.lt_of_succ_lt within), ← UInt32.ofNat_one, ← UInt32.ofNat_add,
    UInt32.toNat_ofNat_of_lt' within]

/-- The earlier line comes first, and in one line the earlier column. -/
def order (left right : Position) : Ordering :=
  (compare left.line right.line).then (compare left.column right.column)

def text (position : Position) : String := s!"line {position.line}, col {position.column}"

end Position

structure Location where
  span : Span
  position : Position
deriving DecidableEq, Inhabited, Repr

namespace Location

/-- The location of a tree that no source text was read for. -/
def unknown : Location := ⟨.unknown, .start⟩

def through (first last : Location) : Location := ⟨first.span.merge last.span, first.position⟩

end Location

/-- How far a text has been read: the bytes behind, and where the next character stands. -/
structure Place where
  offset : Nat
  position : Position
deriving DecidableEq, Inhabited, Repr

namespace Place

def start : Place := ⟨0, .start⟩

def after (place : Place) (char : Char) : Place :=
  ⟨place.offset + char.utf8Size,
    if char = '\n' then ⟨place.position.line + 1, 1⟩
    else ⟨place.position.line, place.position.column + 1⟩⟩

def afterAll (place : Place) (chars : List Char) : Place := chars.foldl after place

def upTo (place stop : Place) : Location := ⟨⟨place.offset, stop.offset⟩, place.position⟩

def upTo? (place stop : Place) : Except SpanError Location :=
  (Span.ofRange place.offset stop.offset).map (⟨·, place.position⟩)

theorem after_all_append (place : Place) (first second : List Char) :
    place.afterAll (first ++ second) = (place.afterAll first).afterAll second :=
  List.foldl_append

end Place

end Reckon
