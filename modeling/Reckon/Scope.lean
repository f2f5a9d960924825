import Reckon.Tree
import Reckon.Value
import Std.Data.TreeMap

/-!
Scopes: the variables and callables that names stand for. A name stands for at most one of them, so
giving it one takes the other away.
-/

namespace Reckon

structure Parameter where
  name : String
  kind : Kind
deriving DecidableEq

structure Callable where
  name : String
  returns : Kind
  parameters : List Parameter
  body : Tree
  position : Position

namespace Callable

def parameter? (callable : Callable) (name : String) : Option Parameter :=
  callable.parameters.find? (·.name == name)

def arity (callable : Callable) : Nat := callable.parameters.length

end Callable

structure Names where
  value? : String → Option Value
  callable? : String → Option Callable

/-- The variables and the callables, each table in the order of the names. -/
structure Scope where
  values : Std.TreeMap String Value
  callables : Std.TreeMap String Callable

inductive AssignError where
  | undefined
  | notAVariable
deriving DecidableEq, Repr

namespace Scope

def empty : Scope := ⟨{}, {}⟩

instance : Inhabited Scope := ⟨empty⟩

def value? (scope : Scope) (name : String) : Option Value := scope.values[name]?

def callable? (scope : Scope) (name : String) : Option Callable := scope.callables[name]?

def names (scope : Scope) : Names := ⟨scope.value?, scope.callable?⟩

def defines (scope : Scope) (name : String) : Bool :=
  scope.values.contains name || scope.callables.contains name

/-- Lets a name stand for a value and for nothing else. -/
def defineVariable (scope : Scope) (name : String) (value : Value) : Scope :=
  ⟨scope.values.insert name value, scope.callables.erase name⟩

def bind (scope : Scope) (bindings : List (String × Value)) : Scope :=
  bindings.foldl (fun scope (name, value) => scope.defineVariable name value) scope

/-- Lets a callable's own name stand for it and for nothing else. -/
def defineCallable (scope : Scope) (callable : Callable) : Scope :=
  ⟨scope.values.erase callable.name, scope.callables.insert callable.name callable⟩

def assign (scope : Scope) (name : String) (value : Value) : Except AssignError Scope :=
  if scope.values.contains name then
    .ok { scope with values := scope.values.insert name value }
  else if scope.callables.contains name then .error .notAVariable
  else .error .undefined

def variableList (scope : Scope) : List (String × Value) := scope.values.toList

def callableList (scope : Scope) : List Callable := scope.callables.toList.map (·.2)

end Scope

end Reckon
