import Reckon.Fault

/-! Operations on values whose failures are faults. Whoever asks for one locates the fault. -/

namespace Reckon

namespace Value

def convert (value : Value) (kind : Kind) : Except Fault Value :=
  match value.convert? kind with
  | some converted => .ok converted
  | none => .error (.of (.incompatibleValue kind value))

def read (text : String) (kind : Kind) : Except Fault Value :=
  match read? text kind with
  | some value => .ok value
  | none => .error (.of (.invalidLiteral kind text))

def compute (operator : Operator) (left right : Value) : Except Fault Value :=
  (binary operator left right).mapError fun error => .of (.ofArithmetic error)

end Value

def located {α : Type} (location : Location) (result : Except Fault α) : Except Fault α :=
  result.mapError (·.locate location)

end Reckon
