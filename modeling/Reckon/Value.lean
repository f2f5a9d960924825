import Reckon.Number.Layout
import Reckon.Number.Numeral

/-!
Values: 64-bit integers and binary64 numbers. A value keeps its kind; converting it makes another.
-/

namespace Reckon

inductive Kind where
  | int
  | num
deriving DecidableEq, Repr

namespace Kind

def ofName? : String → Option Kind
  | "int" => some .int
  | "num" => some .num
  | _ => none

def name : Kind → String
  | .int => "int"
  | .num => "num"

theorem of_name_name (kind : Kind) : ofName? kind.name = some kind := by
  cases kind <;> rfl

end Kind

inductive Value where
  | int (number : Int64)
  | num (number : Float)
deriving Inhabited

namespace Value

def kind : Value → Kind
  | .int _ => .int
  | .num _ => .num

/-- The value as a real number; for an integer the nearest one. -/
def toFloat : Value → Float
  | .int number => .ofInt number.toInt
  | .num number => number

def equals : Value → Value → Bool
  | .int left, .int right => left == right
  | .num left, .num right => left == right
  | _, _ => false

def text : Value → String
  | .int number => toString number.toInt
  | .num number => Number.text number

/-- Two to the sixty-third, the first number past the 64-bit integers. -/
def integerLimit : Float := 9223372036854775808.0

def truncate? (number : Float) : Option Int64 :=
  let whole := Number.trunc number
  if whole.isFinite && -integerLimit ≤ whole && whole < integerLimit then
    some (Number.saturate whole)
  else none

/-- The value converted to a kind: an integer becomes the nearest number, and a number loses its
fraction and must then fit into 64 bits. -/
def convert? (value : Value) : Kind → Option Value
  | .int =>
      match value with
      | .int _ => some value
      | .num number => (truncate? number).map .int
  | .num => some (.num value.toFloat)

def read? (text : String) : Kind → Option Value
  | .int => (Number.readInt? text).map .int
  | .num => (Number.readNum? text).map .num

end Value

end Reckon
