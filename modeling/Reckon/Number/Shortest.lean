import Reckon.Number.Binary

/-!
The shortest decimal that reads back as a given binary64 number: of the coarsest decimal grid with
a point in the number's rounding interval the nearest point, and of two as near the larger.
-/

namespace Reckon.Number

structure Decimal where
  digits : Nat
  exponent : Int
deriving DecidableEq, Repr

structure Ratio where
  numerator : Nat
  denominator : Nat

/-- Ten to the first power over two to the second. -/
def Ratio.ofPowers (ten two : Int) : Ratio where
  numerator := Nat.pow 10 ten.toNat <<< (-two).toNat
  denominator := Nat.pow 10 (-ten).toNat <<< two.toNat

/-- The decimals that read back as a number, in quarters of the unit of its significand. -/
structure RoundingInterval where
  low : Nat
  value : Nat
  high : Nat
  closed : Bool

def RoundingInterval.of (significand : Nat) (exponent : Int) : RoundingInterval where
  -- half a unit to either neighbour, or a quarter to one below in a finer range
  low := 4 * significand -
    if significand = Binary.leadingBit ∧ Binary.minExponent < exponent then 1 else 2
  value := 4 * significand
  high := 4 * significand + 2
  closed := significand % 2 == 0

namespace RoundingInterval

def contains (interval : RoundingInterval) (ratio : Ratio) (digits : Nat) : Bool :=
  let point := digits * ratio.numerator
  let low := interval.low * ratio.denominator
  let high := interval.high * ratio.denominator
  if interval.closed then low ≤ point && point ≤ high else low < point && point < high

def nearest? (interval : RoundingInterval) (ratio : Ratio) : Option Nat :=
  let value := interval.value * ratio.denominator
  let below := value / ratio.numerator
  let fromBelow := value - below * ratio.numerator
  let isBelow := interval.contains ratio below
  let isAbove := interval.contains ratio (below + 1)
  if isAbove && (!isBelow || ratio.numerator ≤ 2 * fromBelow) then some (below + 1)
  else if isBelow && below != 0 then some below
  else none

/-- The nearest point of the coarsest grid that has one, from a power of ten downward. -/
def coarsest (interval : RoundingInterval) (unit : Int) : Nat → Int → Decimal
  | 0, ten => ⟨interval.value, ten⟩
  | finer + 1, ten =>
      match interval.nearest? (.ofPowers ten unit) with
      | some digits => ⟨digits, ten⟩
      | none => coarsest interval unit finer (ten - 1)

end RoundingInterval

-- seventeen digits tell all numbers apart
def shortest (significand : Nat) (exponent : Int) : Decimal :=
  let magnitude := significand.log2 + 1 + exponent
  (RoundingInterval.of significand exponent).coarsest (exponent - 2) 24
    (magnitude * 30103 / 100000 + 1)

end Reckon.Number
