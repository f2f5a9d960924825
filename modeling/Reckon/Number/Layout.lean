import Reckon.Number.Shortest

/-!
The text of a binary64 number. Numbers from 1e-5 up to 1e16 are written out with a point, all
others with an exponent; a whole number that is written out keeps one zero behind its point.
-/

namespace Reckon.Number

def decimalDigits (number : Nat) : List Char := Nat.toDigits 10 number

/-- The digits with a point among them or zeros around them, as the exponent says. -/
def writtenOut (decimal : Decimal) : List Char :=
  let digits := decimalDigits decimal.digits
  match decimal.exponent with
  | .ofNat zeros => digits ++ List.replicate zeros '0'
  | .negSucc below =>
      let places := below + 1
      if places < digits.length then
        digits.take (digits.length - places) ++ '.' :: digits.drop (digits.length - places)
      else '0' :: '.' :: List.replicate (places - digits.length) '0' ++ digits

/-- The first digit, the others behind a point, and the power of ten of the first. -/
def withExponent (decimal : Decimal) : List Char :=
  let digits := decimalDigits decimal.digits
  let fraction := digits.drop 1
  let power := decimal.exponent + (digits.length - 1 : Nat)
  digits.take 1 ++ (if fraction.isEmpty then [] else '.' :: fraction) ++ 'e' ::
    (toString power).toList

/-- Whether a significand times a power of two is at least 1e-5 and less than 1e16. -/
def isWrittenOut (significand : Nat) (exponent : Int) : Bool :=
  let magnitude := significand <<< exponent.toNat
  let unit := 1 <<< (-exponent).toNat
  unit ≤ magnitude * 100000 && magnitude < 10000000000000000 * unit

def magnitudeText (significand : Nat) (exponent : Int) : List Char :=
  if significand = 0 then ['0', '.', '0']
  else if !isWrittenOut significand exponent then withExponent (shortest significand exponent)
  else if isWhole significand exponent then
    decimalDigits (wholePart significand exponent) ++ ['.', '0']
  else writtenOut (shortest significand exponent)

def signText (negative : Bool) : List Char := if negative then ['-'] else []

def Binary.text : Binary → List Char
  | .nan => ['N', 'a', 'N']
  | .infinite negative => signText negative ++ ['i', 'n', 'f']
  | .finite negative significand exponent =>
      signText negative ++ magnitudeText significand exponent

def text (number : Float) : String := String.ofList (Binary.ofFloat number).text

end Reckon.Number
