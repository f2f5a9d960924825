/-! The exact value of a binary64 number: a sign, a significand and a power of two. -/

namespace Reckon.Number

/-- A finite number is the significand times two to the exponent. -/
inductive Binary where
  | nan
  | infinite (negative : Bool)
  | finite (negative : Bool) (significand : Nat) (exponent : Int)
deriving DecidableEq, Repr

namespace Binary

def minExponent : Int := -1074

/-- The bit above the fraction, which a significand has unless its number is too small. -/
def leadingBit : Nat := 1 <<< 52

def ofBits (bits : Nat) : Binary :=
  let negative := (bits >>> 63) % 2 == 1
  let biased := (bits >>> 52) % 2048
  let fraction := bits % leadingBit
  if biased = 2047 then if fraction = 0 then .infinite negative else .nan
  else if biased = 0 then .finite negative fraction minExponent
  else .finite negative (leadingBit + fraction) (minExponent + (biased - 1 : Nat))

def ofFloat (number : Float) : Binary := ofBits number.toBits.toNat

end Binary

def wholePart (significand : Nat) : Int → Nat
  | .ofNat exponent => significand <<< exponent
  | .negSucc below => significand >>> (below + 1)

def isWhole (significand : Nat) : Int → Bool
  | .ofNat _ => true
  | .negSucc below => significand % (1 <<< (below + 1)) == 0

/-- The number with its fraction cut off, the sign kept. -/
def trunc (number : Float) : Float :=
  let bits := number.toBits.toNat
  let biased := (bits >>> 52) % 2048
  -- below one only the sign is left, and from 2 ^ 52 on there is no fraction
  if biased < 1023 then .ofBits (.ofNat (bits >>> 63 <<< 63))
  else if 1075 ≤ biased then number
  else .ofBits (.ofNat (bits >>> (1075 - biased) <<< (1075 - biased)))

/-- The whole part as the nearest 64-bit integer; what is no number becomes zero. -/
def saturate (number : Float) : Int64 :=
  match Binary.ofFloat number with
  | .nan => 0
  | .infinite negative => if negative then Int64.minValue else Int64.maxValue
  | .finite negative significand exponent =>
      let whole : Int := wholePart significand exponent
      .ofIntClamp (if negative then -whole else whole)

end Reckon.Number
