import Reckon.Evaluation.Tree
import Reckon.Grammar.Parse
import Reckon.Statement

/-!
Sessions: programs run one after the other on the same variables and callables. A statement changes
the scope or the output only as the last thing it does, so that one which fails leaves no trace.
-/

namespace Reckon

inductive Output where
  | kept (text : String)
  | discarded
deriving DecidableEq, Repr

namespace Output

def empty : Output := .kept ""

def writeLine (output : Output) (line : String) : Output :=
  match output with
  | .kept text => .kept (text ++ line ++ "\n")
  | .discarded => .discarded

def text : Output → String
  | .kept text => text
  | .discarded => ""

def clear : Output → Output
  | .kept _ => .empty
  | .discarded => .discarded

end Output

structure Session where
  scope : Scope
  calls : Calls
  output : Output

/-- What statements do: they take a session along and end with a result or a fault, or with
nothing where an evaluation is not followed to its end. -/
abbrev Execution (α : Type) := ExceptT Fault (StateT Session Option) α

namespace Session

def defaultLimit : Nat := 512

def start (scope : Scope) (limit? : Option Nat) (output : Output) : Session :=
  ⟨scope, .start limit?, output⟩

end Session

namespace Execution

variable {α : Type}

def ofExcept : Except Fault α → Execution α
  | .ok result => pure result
  | .error fault => throw fault

def evaluate (tree : Tree) : Execution Value := fun session =>
  (tree.evaluate session.scope session.calls).map fun (result, calls) =>
    (result, { session with calls := calls })

def setScope (scope : Scope) : Execution Unit := modify fun session =>
  { session with scope := scope }

def define (location : Location) (pieces : List (Piece Tree)) : Execution Value := do
  let definition ← ofExcept (Statement.Definition.ofPieces location pieces)
  let computed ← evaluate definition.value
  let value ← match definition.kind? with
    | some kind => ofExcept (located definition.value.location (computed.convert kind))
    | none => pure computed
  setScope ((← get).scope.defineVariable definition.name value)
  return value

def unassignable (scope : Scope) (name : String) (location : Location) : Fault :=
  ((Fault.of (.undefinedVariable name)).locate location).withNote
    (if (scope.callable? name).isSome then .notAssignable name else .defineFirst name)

/-- An assignment keeps the kind of the variable. -/
def assign (location : Location) (pieces : List (Piece Tree)) : Execution Value := do
  let assignment ← ofExcept (Statement.Assignment.ofPieces location pieces)
  let scope := (← get).scope
  match scope.value? assignment.name with
  | none => throw (unassignable scope assignment.name location)
  | some current => do
      let computed ← evaluate assignment.value
      let value ← ofExcept (located assignment.value.location (computed.convert current.kind))
      match (← get).scope.assign assignment.name value with
      | .ok scope => do
          setScope scope
          return value
      | .error _ => throw ((Fault.of (.undefinedVariable assignment.name)).locate location)

def echo (location : Location) (pieces : List (Piece Tree)) : Execution Value := do
  let value ← evaluate (← ofExcept (Statement.echoed location pieces))
  modify fun session => { session with output := session.output.writeLine value.text }
  return value

def defineCallable (location : Location) (pieces : List (Piece Tree)) : Execution Unit := do
  let callable ← ofExcept (Statement.callable location pieces)
  setScope ((← get).scope.defineCallable callable)

def ofTree (tree : Tree) : Execution (Option Value) :=
  match tree.production with
  | .newline => return none
  | .varDefine => some <$> define tree.location tree.pieces
  | .varAssign => some <$> assign tree.location tree.pieces
  | .echo => some <$> echo tree.location tree.pieces
  | .callableDefine => do
      defineCallable tree.location tree.pieces
      return none
  | .parameters | .signature | .arguments =>
      throw (.malformed tree.production "a statement" tree.location)
  | .expr | .term | .factor | .atom | .call | .intLiteral | .numLiteral | .identifier =>
      some <$> evaluate tree

/-- Executes statements in order until one fails, for the last value that one of them has. -/
def ofTrees (last : Option Value) : List Tree → Execution (Option Value)
  | [] => return last
  | tree :: rest => do
      let value? ← ofTree tree
      ofTrees (value?.orElse fun _ => last) rest

end Execution

inductive Failure where
  | unreadable (error : ParseError)
  | faulty (fault : Fault)

namespace Failure

def report : Failure → Report
  | .unreadable error => error.report
  | .faulty fault => fault.report

end Failure

namespace Session

def clearOutput (session : Session) : Session := { session with output := session.output.clear }

def execute (trees : List Tree) (session : Session) :
    Option (Except Fault (Option Value) × Session) :=
  Execution.ofTrees none trees session

/-- Reads a program and executes it; one that cannot be read changes nothing. -/
def run (source : String) (session : Session) :
    Option (Except Failure (Option Value) × Session) :=
  match parse source with
  | .error error => some (.error (.unreadable error), session)
  | .ok trees =>
      (session.execute trees).map fun (result, session) =>
        (result.mapError .faulty, session)

theorem run_of_parse_error {source : String} {error : ParseError}
    (failed : parse source = .error error) (session : Session) :
    session.run source = some (.error (.unreadable error), session) := by
  rw [run, failed]

end Session

end Reckon
