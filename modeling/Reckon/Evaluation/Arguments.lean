import Reckon.Evaluation.Basic

/-!
The arguments of a call: found among its pieces, matched with the parameters by name, and converted
to their kinds once they have values.
-/

namespace Reckon

structure Argument where
  name : String
  value : Operand

namespace Argument

def expr? (piece : Piece Operand) : Option Operand :=
  piece.tree?.filter (·.tree.production == .expr)

def name? (piece : Piece Operand) : Option String := piece.tree?.bind (·.tree.name?)

/-- Groups of a name, a sign and an expression, with an optional comma after each. -/
def ofPieces (location : Location) : List (Piece Operand) → Except Fault (List Argument)
  | [] => .ok []
  | name :: mark :: value :: rest =>
      match name? name, expr? value with
      | some name, some value =>
          if mark.isToken "=" then
            let others := match rest with
              | comma :: more =>
                  if comma.isToken "," then ofPieces location more
                  else ofPieces location (comma :: more)
              | [] => .ok []
            others.map (⟨name, value⟩ :: ·)
          else .error (.malformed .arguments "`=` after the argument name" location)
      | _, _ => .error (.malformed .arguments "`name = expr` pairs" location)
  | _ => .error (.malformed .arguments "`name = expr` pairs" location)

/-- The argument names must be exactly the parameter names. -/
def check (callable : Callable) (arguments : List Argument) (location : Location) :
    Except Fault Unit :=
  let missing := (callable.parameters.map (·.name)).filter fun name =>
    !arguments.any (·.name == name)
  let extra := (arguments.map (·.name)).filter fun name => (callable.parameter? name).isNone
  if missing.isEmpty && extra.isEmpty then .ok ()
  else .error ((Fault.of (.argumentMismatch callable.name missing extra)).locate location)

def evaluateAll : List Argument → Evaluation (List (Argument × Value))
  | [] => pure []
  | argument :: rest => do
      let value ← argument.value.value
      let values ← evaluateAll rest
      return (argument, value) :: values

def convertAll (callable : Callable) :
    List (Argument × Value) → Except Fault (List (String × Value))
  | [] => .ok []
  | (argument, value) :: rest =>
      let location := argument.value.tree.location
      match callable.parameter? argument.name with
      | none => .error (.malformed .arguments "a declared parameter" location)
      | some parameter => do
          let converted ← located location (value.convert parameter.kind)
          let others ← convertAll callable rest
          return (argument.name, converted) :: others

end Argument

end Reckon
