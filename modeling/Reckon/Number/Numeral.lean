/-!
Reading numbers from text, behind an optional sign: integers as digits, real numbers as digits with
at most one point and an optional exponent, or as a word.
-/

namespace Reckon.Number

def digitValue? (char : Char) : Option Nat :=
  if '0' ≤ char ∧ char ≤ '9' then some (char.toNat - '0'.toNat) else none

def digits? (chars : List Char) : Option (List Nat) :=
  if chars.isEmpty then none else chars.mapM digitValue?

def ofDigits (digits : List Nat) : Nat :=
  digits.foldl (fun number digit => 10 * number + digit) 0

/-- The number written with these digits, of which none counts once the limit is reached. -/
def ofDigitsWithin (limit : Nat) (digits : List Nat) : Nat :=
  digits.foldl (fun number digit => if number < limit then 10 * number + digit else number) 0

def splitSign : List Char → Bool × List Char
  | '+' :: rest => (false, rest)
  | '-' :: rest => (true, rest)
  | chars => (false, chars)

def applySign (negative : Bool) (magnitude : Nat) : Int :=
  if negative then -magnitude else magnitude

def integer? (limit : Nat) (chars : List Char) : Option Int :=
  let (negative, rest) := splitSign chars
  (digits? rest).map fun digits => applySign negative (ofDigitsWithin limit digits)

def toInt64? (number : Int) : Option Int64 :=
  if Int64.minValue.toInt ≤ number ∧ number ≤ Int64.maxValue.toInt then some (.ofInt number)
  else none

-- a number that reaches 2 ^ 64 fits with neither sign
def readInt? (text : String) : Option Int64 := integer? UInt64.size text.toList >>= toInt64?

def decisiveDigits : Nat := 768

/-- Digits that round as the given ones do: a single one stands for all behind the decisive ones. -/
def condense (digits : List Nat) : List Nat :=
  let (decisive, others) := digits.splitAt decisiveDigits
  if others.all (· = 0) then decisive else decisive ++ [1]

/-- The number nearest to what the digits write, times a power of ten. -/
def nearestFloat (digits : List Nat) (power : Int) : Float :=
  let significant := digits.dropWhile (· = 0)
  let magnitude := significant.length + power
  if significant.isEmpty ∨ magnitude < -400 then 0.0
  else if 400 < magnitude then 1.0 / 0.0
  else
    let condensed := condense significant
    let scale := magnitude - condensed.length
    Float.ofScientific (ofDigits condensed) (scale < 0) scale.natAbs

def word? (chars : List Char) : Option Float :=
  let lower := chars.map Char.toLower
  if lower = "inf".toList ∨ lower = "infinity".toList then some (1.0 / 0.0)
  else if lower = "nan".toList then some (0.0 / 0.0)
  else none

def splitExponent (chars : List Char) : List Char × Option (List Char) :=
  let mantissa := chars.takeWhile fun char => char != 'e' && char != 'E'
  match chars.drop mantissa.length with
  | [] => (mantissa, none)
  | _ :: exponent => (mantissa, some exponent)

def splitPoint (chars : List Char) : List Char × List Char :=
  let whole := chars.takeWhile (· != '.')
  (whole, chars.drop (whole.length + 1))

/-- Digits of an exponent behind this limit are passed over: 1e655360 is read as 1e65536. -/
def exponentLimit : Nat := 65536

def decimal? (chars : List Char) : Option Float := do
  let (mantissa, exponent?) := splitExponent chars
  let power ← match exponent? with
    | none => some 0
    | some exponent => integer? exponentLimit exponent
  let (whole, fraction) := splitPoint mantissa
  let digits ← digits? (whole ++ fraction)
  some (nearestFloat digits (power - fraction.length))

def readNum? (text : String) : Option Float :=
  let (negative, rest) := splitSign text.toList
  ((word? rest).orElse fun _ => decimal? rest).map fun number =>
    if negative then -number else number

end Reckon.Number
