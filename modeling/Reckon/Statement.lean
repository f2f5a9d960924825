import Reckon.Scope
import Reckon.Fault

/-!
The parts of statements, found among the pieces of their trees. Whatever is amiss with the pieces
of a statement is told before anything is evaluated.
-/

namespace Reckon

namespace Statement

def nameOf (construct : Production) (location : Location) (expected : String) (piece : Piece Tree) :
    Except Fault String :=
  match piece.tree?.bind Tree.name? with
  | some name => .ok name
  | none => .error (.malformed construct expected location)

def expressionOf (construct : Production) (location : Location) (piece : Piece Tree) :
    Except Fault Tree :=
  match piece.tree?.filter (·.production == .expr) with
  | some tree => .ok tree
  | none => .error (.malformed construct "an expression" location)

/-- The kind that a piece names; a name that is no kind is located at the piece. -/
def kindOf (construct : Production) (location : Location) (piece : Piece Tree) :
    Except Fault Kind := do
  let name ← nameOf construct location "a type name" piece
  match Kind.ofName? name with
  | some kind => .ok kind
  | none => .error ((Fault.unknownType name).locate ((piece.tree?.map (·.location)).getD location))

structure Definition where
  name : String
  kind? : Option Kind
  value : Tree

namespace Definition

def misshapen (location : Location) : Except Fault Definition :=
  .error (.malformed .varDefine "`name : type = expr`" location)

def ofPieces (location : Location) : List (Piece Tree) → Except Fault Definition
  | [target, colon, declared, equals, value] =>
      if colon.isToken ":" && equals.isToken "=" then do
        let target ← nameOf .varDefine location "a variable name" target
        let declared ← kindOf .varDefine location declared
        let value ← expressionOf .varDefine location value
        return ⟨target, some declared, value⟩
      else misshapen location
  | [target, colon, equals, value] =>
      if colon.isToken ":" && equals.isToken "=" then do
        let target ← nameOf .varDefine location "a variable name" target
        let value ← expressionOf .varDefine location value
        return ⟨target, none, value⟩
      else misshapen location
  | _ => misshapen location

end Definition

structure Assignment where
  name : String
  value : Tree

def Assignment.ofPieces (location : Location) : List (Piece Tree) → Except Fault Assignment
  | [target, equals, value] =>
      if equals.isToken "=" then do
        let target ← nameOf .varAssign location "a variable name" target
        let value ← expressionOf .varAssign location value
        return ⟨target, value⟩
      else .error (.malformed .varAssign "`=` after the name" location)
  | _ => .error (.malformed .varAssign "`name = expr`" location)

def echoed (location : Location) : List (Piece Tree) → Except Fault Tree
  | [keyword, value] =>
      if keyword.isToken "echo" then expressionOf .echo location value
      else .error (.malformed .echo "the `echo` keyword" location)
  | _ => .error (.malformed .echo "`echo expr`" location)

/-- Groups of a name, a colon and a kind, with an optional comma after each. No name may repeat one
of those already seen. -/
def parameters (callable : String) (location : Location) (seen : List String) :
    List (Piece Tree) → Except Fault (List Parameter)
  | [] => .ok []
  | target :: colon :: declared :: rest =>
      if colon.isToken ":" then do
        let name ← nameOf .parameters location "a parameter name" target
        let declared ← kindOf .parameters location declared
        if name ∈ seen then
          .error ((Fault.of (.duplicateParameter callable name)).locate
            ((target.tree?.map (·.location)).getD location))
        else
          let others ← match rest with
            | comma :: more =>
                if comma.isToken "," then parameters callable location (name :: seen) more
                else parameters callable location (name :: seen) (comma :: more)
            | [] => .ok []
          return ⟨name, declared⟩ :: others
      else .error (.malformed .parameters "`:` after the parameter name" location)
  | _ => .error (.malformed .parameters "`name : type` pairs" location)

def signature (callable : String) (location : Location) :
    List (Piece Tree) → Except Fault (Kind × List Parameter)
  | [returned, opening, list, closing] =>
      if opening.isToken "(" && closing.isToken ")" then do
        let returned ← kindOf .signature location returned
        match list.tree?.filter (·.production == .parameters) with
        | some list =>
            let parameters ← parameters callable list.location [] list.pieces
            return (returned, parameters)
        | none => .error (.malformed .signature "a parameter list" location)
      else .error (.malformed .signature "parentheses around the parameters" location)
  | _ => .error (.malformed .signature "`type ( params )`" location)

/-- The callable that a definition defines. Its body has to be an expression; what is inside is
looked at when it is called. -/
def callable (location : Location) : List (Piece Tree) → Except Fault Callable
  | [target, colon, signed, equals, body] =>
      if colon.isToken ":" && equals.isToken "=" then do
        let target ← nameOf .callableDefine location "a callable name" target
        match signed.tree?.filter (·.production == .signature) with
        | some signed =>
            let (returned, parameters) ← signature target signed.location signed.pieces
            match body.tree?.filter (·.production == .expr) with
            | some body => return ⟨target, returned, parameters, body, location.position⟩
            | none => .error (.malformed .callableDefine "a body expression" location)
        | none => .error (.malformed .callableDefine "a callable signature" location)
      else
        .error (.malformed .callableDefine "`:` after the name and `=` before the body" location)
  | _ => .error (.malformed .callableDefine "`name : type ( params ) = expr`" location)

end Statement

end Reckon
