import Reckon.Operator
import Reckon.Value

/-!
Arithmetic on values. Two integers give the exact integer or an error; as soon as one operand is a
number, both are taken as numbers.
-/

namespace Reckon

inductive ArithmeticError where
  | divisionByZero
  | integerOverflow (operator : Operator)
deriving DecidableEq, Repr

namespace Value

def ofExact (operator : Operator) (result : Int) : Except ArithmeticError Value :=
  match Number.toInt64? result with
  | some number => .ok (.int number)
  | none => .error (.integerOverflow operator)

def product? (left right : Int) : Option Int := (Number.toInt64? (left * right)).map Int64.toInt

/-- A power by squaring, for an exponent of so many bits, if 64 bits hold every product. -/
def power? (base : Int) : Nat → Nat → Option Int
  | 0, _ => some 1
  | bits + 1, exponent =>
      if exponent = 0 then some 1
      else if exponent = 1 then some base
      else do
        let squared ← product? base base
        let power ← power? squared bits (exponent / 2)
        if exponent % 2 = 0 then some power else product? power base

def alternating (exponent : Int) : Int := if exponent % 2 = 0 then 1 else -1

/-- An integer to the power of another; the fraction that a negative exponent gives is cut off. -/
def intPower (base exponent : Int) : Except ArithmeticError Value :=
  if exponent < 0 then
    if base = 0 then .error .divisionByZero
    else if base = 1 then ofExact .pow 1
    else if base = -1 then ofExact .pow (alternating exponent)
    else ofExact .pow 0
  else if exponent < UInt32.size then
    match power? base 32 exponent.toNat with
    | some power => ofExact .pow power
    | none => .error (.integerOverflow .pow)
  else if base = 0 ∨ base = 1 then ofExact .pow base
  else if base = -1 then ofExact .pow (alternating exponent)
  else .error (.integerOverflow .pow)

def intBinary (operator : Operator) (left right : Int) : Except ArithmeticError Value :=
  match operator with
  | .add => ofExact .add (left + right)
  | .sub => ofExact .sub (left - right)
  | .mul => ofExact .mul (left * right)
  | .div => if right = 0 then .error .divisionByZero else ofExact .div (left.tdiv right)
  | .pow => intPower left right

def numBinary (operator : Operator) (left right : Float) : Except ArithmeticError Value :=
  match operator with
  | .add => .ok (.num (left + right))
  | .sub => .ok (.num (left - right))
  | .mul => .ok (.num (left * right))
  | .div => if right == 0.0 then .error .divisionByZero else .ok (.num (left / right))
  | .pow => .ok (.num (left ^ right))

def binary (operator : Operator) : Value → Value → Except ArithmeticError Value
  | .int left, .int right => intBinary operator left.toInt right.toInt
  | left, right => numBinary operator left.toFloat right.toFloat

end Value

end Reckon
