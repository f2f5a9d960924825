import Reckon.Evaluation.Arguments

/-!
Calls: the name and the arguments are looked at first, then the arguments are evaluated, and only
then the call begins that the body of the callable is evaluated in.
-/

namespace Reckon

namespace Evaluation

/-- The parts of a call: the name called and the arguments, whose pieces are given apart. -/
def callParts (location : Location) (given : List (Piece Operand)) :
    List (Piece Operand) → Except Fault (String × List Argument)
  | [callee, opening, arguments, closing] =>
      match Argument.name? callee, arguments.tree?.filter (·.tree.production == .arguments) with
      | some name, some arguments =>
          if opening.isToken "(" && closing.isToken ")" then
            (Argument.ofPieces arguments.tree.location given).map fun found => (name, found)
          else .error (.malformed .call "parentheses around the arguments" location)
      | _, _ => .error (.malformed .call "a callable name and argument list" location)
  | _ => .error (.malformed .call "`name ( arglist )`" location)

def callee (names : Names) (name : String) (location : Location) : Except Fault Callable :=
  match names.callable? name with
  | some callable => .ok callable
  | none =>
      let fault := (Fault.of (.undefinedFunction name)).locate location
      .error (if (names.value? name).isSome then fault.withNote (.notCallable name) else fault)

/-- An evaluation inside a call. A fault that leaves the outermost call says which that was. -/
def during (call : Call) (body : Evaluation Value) : Evaluation Value := fun calls =>
  match calls.push call with
  | .error fault => some (.error fault, calls)
  | .ok inside =>
      match body inside with
      | none => none
      | some (result, left) =>
          let calls := left.pop
          let noted := result.mapError fun fault =>
            if calls.isEmpty then fault.withNote call.note else fault
          some (noted, calls)

def invoke (enter : Callable → List (String × Value) → Evaluation Value) (callable : Callable)
    (values : List (Argument × Value)) : Evaluation Value := do
  let bindings ← ofExcept (Argument.convertAll callable values)
  let value ← enter callable bindings
  ofExcept (located callable.body.location (value.convert callable.returns))

def call (names : Names) (enter : Callable → List (String × Value) → Evaluation Value)
    (location : Location) (pieces given : List (Piece Operand)) : Evaluation Value := do
  let (name, arguments) ← ofExcept (callParts location given pieces)
  let callable ← ofExcept (callee names name location)
  ofExcept (Argument.check callable arguments location)
  let values ← Argument.evaluateAll arguments
  during ⟨name, location⟩ (invoke enter callable values)

end Evaluation

end Reckon
