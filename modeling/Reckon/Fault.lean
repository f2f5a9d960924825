import Reckon.Report
import Reckon.Tree
import Reckon.Value.Arithmetic

/-!
Faults of evaluation: what went wrong, where, and what else there is to say about it. A fault is
located by the innermost tree it passes on its way out.
-/

namespace Reckon

inductive Cause where
  | undefinedVariable (name : String)
  | undefinedFunction (name : String)
  | unknownType (name : String)
  | incompatibleValue (target : Kind) (value : Value)
  | argumentMismatch (callable : String) (missing extra : List String)
  | duplicateParameter (callable name : String)
  | malformed (construct : Production) (expected : String)
  | divisionByZero
  | integerOverflow (operator : Operator)
  | recursionLimit (name : String) (limit : Nat)
  | invalidLiteral (kind : Kind) (text : String)

namespace Cause

def ofArithmetic : ArithmeticError → Cause
  | .divisionByZero => .divisionByZero
  | .integerOverflow operator => .integerOverflow operator

def code : Cause → ErrorCode
  | .undefinedVariable _ => .undefinedVariable
  | .undefinedFunction _ => .undefinedFunction
  | .unknownType _ => .unknownType
  | .incompatibleValue .. => .incompatibleValue
  | .argumentMismatch .. => .argumentMismatch
  | .duplicateParameter .. => .duplicateParameter
  | .malformed .. => .malformedTree
  | .divisionByZero => .divisionByZero
  | .integerOverflow _ => .integerOverflow
  | .recursionLimit .. => .recursionLimit
  | .invalidLiteral .. => .invalidLiteral

def nameList (names : List String) : String :=
  ", ".intercalate (names.map fun name => s!"`{name}`")

/-- The names that are missing and then those that are too many, as far as there are any. -/
def mismatchText (missing extra : List String) : String :=
  (if missing.isEmpty then "" else s!": missing {nameList missing}") ++
    if extra.isEmpty then ""
    else (if missing.isEmpty then ":" else ";") ++ s!" unexpected {nameList extra}"

def message : Cause → String
  | .undefinedVariable name => s!"undefined variable `{name}`"
  | .undefinedFunction name => s!"undefined function `{name}`"
  | .unknownType name => s!"unknown type `{name}`"
  | .incompatibleValue target value =>
      s!"cannot construct a value of type `{target.name}` from {value.text}"
  | .argumentMismatch callable missing extra =>
      s!"arguments do not match the parameters of `{callable}`" ++ mismatchText missing extra
  | .duplicateParameter callable name =>
      s!"parameter `{name}` of `{callable}` is declared more than once"
  | .malformed construct expected => s!"malformed {construct.name}: expected {expected}"
  | .divisionByZero => "division by zero"
  | .integerOverflow operator => s!"integer overflow in {operator.name}"
  | .recursionLimit name limit =>
      s!"maximum call depth exceeded calling `{name}` (limit: {limit})"
  | .invalidLiteral kind text => s!"invalid {kind.name} literal `{text}`"

end Cause

inductive Note where
  | knownTypes
  /-- A callable is named where a value is read. -/
  | callIt (name : String)
  /-- A variable is named where a callable is called. -/
  | notCallable (name : String)
  /-- A callable is named where a value is assigned. -/
  | notAssignable (name : String)
  /-- An unknown name is assigned to. -/
  | defineFirst (name : String)
  | inCall (name : String) (position : Position)
  | remark (text : String)
deriving DecidableEq

namespace Note

def text : Note → String
  | .knownTypes => "known types are `int` and `num`"
  | .callIt name => s!"`{name}` is a callable; call it as `{name}(...)`"
  | .notCallable name => s!"`{name}` is a variable, not a callable"
  | .notAssignable name => s!"`{name}` is a callable and cannot be assigned"
  | .defineFirst name => s!"define it first with `{name}: = ...`"
  | .inCall name position => s!"in call to `{name}` at {position.text}"
  | .remark text => text

end Note

structure Fault where
  cause : Cause
  location? : Option Location
  notes : List Note

namespace Fault

def of (cause : Cause) : Fault := ⟨cause, none, []⟩

def withNote (fault : Fault) (note : Note) : Fault := { fault with notes := fault.notes ++ [note] }

/-- Locates a fault unless something further inside has done so. -/
def locate (fault : Fault) (location : Location) : Fault :=
  { fault with location? := fault.location?.orElse fun _ => some location }

def malformed (construct : Production) (expected : String) (location : Location) : Fault :=
  (of (.malformed construct expected)).locate location

def unknownType (name : String) : Fault := (of (.unknownType name)).withNote .knownTypes

def code (fault : Fault) : ErrorCode := fault.cause.code

def text (fault : Fault) : String :=
  match fault.location? with
  | some location => s!"{fault.cause.message} at {location.position.text}"
  | none => fault.cause.message

def report (fault : Fault) : Report where
  code := fault.code
  message := fault.cause.message
  labels := (fault.location?.map fun location => ⟨location.span, "", true⟩).toList
  notes := fault.notes.map Note.text

@[simp] theorem locate_locate (fault : Fault) (inner outer : Location) :
    (fault.locate inner).locate outer = fault.locate inner := by
  cases fault with
  | mk cause location? notes => cases location? <;> rfl

end Fault

end Reckon
