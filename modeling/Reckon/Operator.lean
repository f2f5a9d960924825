/-! The arithmetic operators, by the sign each is written with. -/

namespace Reckon

inductive Operator where
  | add
  | sub
  | mul
  | div
  | pow
deriving DecidableEq, Repr

namespace Operator

def ofSymbol? : String → Option Operator
  | "+" => some .add
  | "-" => some .sub
  | "*" => some .mul
  | "/" => some .div
  | "^" => some .pow
  | _ => none

def symbol : Operator → String
  | .add => "+"
  | .sub => "-"
  | .mul => "*"
  | .div => "/"
  | .pow => "^"

def name : Operator → String
  | .add => "addition"
  | .sub => "subtraction"
  | .mul => "multiplication"
  | .div => "division"
  | .pow => "exponentiation"

def isMultiplicative : Operator → Bool
  | .mul | .div => true
  | _ => false

def isAdditive : Operator → Bool
  | .add | .sub => true
  | _ => false

theorem of_symbol_symbol (operator : Operator) : ofSymbol? operator.symbol = some operator := by
  cases operator <;> rfl

end Operator

end Reckon
