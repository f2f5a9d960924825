import Reckon.Source.Span
import Reckon.Text.Slice

/-!
The line table of a source text: where each line starts, and from it the line, the position and
the line text of any byte offset.
-/

namespace Reckon

structure Lines where
  text : List Char
  size : Nat
  starts : Array Nat
deriving Repr

namespace Lines

def startsFrom (offset : Nat) (starts : Array Nat) : List Char → Array Nat
  | [] => starts
  | char :: chars =>
      let next := offset + char.utf8Size
      startsFrom next (if char = '\n' then starts.push (min next Span.maxOffset) else starts) chars

def ofText (text : List Char) : Lines where
  text := text
  size := Text.byteSize text
  starts := startsFrom 0 #[0] text

def ofString (text : String) : Lines := ofText text.toList

def count (lines : Lines) : Nat := lines.starts.size

/-- How many of the sorted offsets are at most the bound, by halving the range of the answer. -/
def countUpTo (offsets : Array Nat) (bound low high : Nat) : Nat :=
  if low < high then
    let middle := (low + high) / 2
    if offsets.getD middle 0 ≤ bound then countUpTo offsets bound (middle + 1) high
    else countUpTo offsets bound low middle
  else low
termination_by high - low

def lineAt (lines : Lines) (offset : Nat) : Nat :=
  Position.ordinal (countUpTo lines.starts offset 0 lines.count - 1)

def lineStart? (lines : Lines) : Nat → Option Nat
  | 0 => none
  | index + 1 => lines.starts[index]?

/-- The place of an offset, where one past the text counts as its end and one inside a character
has column one. -/
def position (lines : Lines) (offset : Nat) : Position :=
  let line := lines.lineAt offset
  let start := (lines.lineStart? line).getD 0
  let stop := max (min offset lines.size) start
  ⟨line, Position.ordinal (((Text.slice? start stop lines.text).map List.length).getD 0)⟩

def dropReturn (text : List Char) : List Char :=
  if text.getLast? = some '\r' then text.dropLast else text

def lineText? (lines : Lines) (line : Nat) : Option (List Char) := do
  let start ← lines.lineStart? line
  let stop := ((lines.lineStart? (Position.ordinal line)).map (· - 1)).getD lines.size
  (Text.slice? start stop lines.text).map dropReturn

end Lines

end Reckon
