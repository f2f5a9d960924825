import Reckon.Calls
import Reckon.Scope
import Reckon.Value.Checked

/-!
Evaluations: what a tree does when it is evaluated, and what the pieces of an expression come to
once it is known what each tree among them does.
-/

namespace Reckon

/-- An evaluation starts with the calls under way and ends with the calls then under way and with
a result or a fault. It ends with nothing if calls go deeper than it is followed. -/
abbrev Evaluation (α : Type) := ExceptT Fault (StateT Calls Option) α

namespace Evaluation

variable {α : Type}

def ofExcept : Except Fault α → Evaluation α
  | .ok result => pure result
  | .error fault => throw fault

def malformed (construct : Production) (expected : String) (location : Location) : Evaluation α :=
  throw (.malformed construct expected location)

end Evaluation

structure Operand where
  tree : Tree
  value : Evaluation Value

namespace Operand

/-- A piece that must be a tree of the given production, seen from the tree around it. -/
def valueOf (construct : Production) (location : Location) (expected : Production) :
    Piece Operand → Evaluation Value
  | .tree operand =>
      if operand.tree.production = expected then operand.value
      else .malformed construct s!"`{expected.name}`" location
  | .token _ => .malformed construct s!"`{expected.name}`" location

end Operand

namespace Evaluation

def binary (operator : Operator) (left right : Value) (location : Location) : Evaluation Value :=
  ofExcept (located location (Value.compute operator left right))

structure ChainRule where
  construct : Production
  operand : Production
  allows : Operator → Bool

namespace ChainRule

def expr : ChainRule := ⟨.expr, .term, Operator.isAdditive⟩

def term : ChainRule := ⟨.term, .factor, Operator.isMultiplicative⟩

end ChainRule

/-- What follows the first operands of a chain, whose value is known: operators and operands by
turns, each pair taken as soon as it is read. -/
def chainRest (rule : ChainRule) (location : Location) (left : Value) :
    List (Piece Operand) → Evaluation Value
  | [] => pure left
  | sign :: rest =>
      match (sign.token?.bind Operator.ofSymbol?).filter rule.allows with
      | none => malformed rule.construct "an operator" location
      | some operator =>
          match rest with
          | [] =>
              malformed rule.construct s!"`{rule.operand.name}` after `{operator.symbol}`" location
          | right :: rest => do
              let right ← Operand.valueOf rule.construct location rule.operand right
              let value ← binary operator left right location
              chainRest rule location value rest

def chain (rule : ChainRule) (location : Location) : List (Piece Operand) → Evaluation Value
  | [] => malformed rule.construct s!"`{rule.operand.name}`" location
  | [only] => Operand.valueOf rule.construct location rule.operand only
  | first :: rest => do
      let left ← Operand.valueOf rule.construct location rule.operand first
      chainRest rule location left rest

def factor (location : Location) : List (Piece Operand) → Evaluation Value
  | [] => malformed .factor "an atom" location
  | [base] => Operand.valueOf .factor location .atom base
  | [base, caret, exponent] =>
      if caret.isToken "^" then do
        let base ← Operand.valueOf .factor location .atom base
        let exponent ← Operand.valueOf .factor location .factor exponent
        binary .pow base exponent location
      else malformed .factor "`atom` or `atom ^ factor`" location
  | _ => malformed .factor "`atom` or `atom ^ factor`" location

def isSimpleAtom : Production → Bool
  | .call | .intLiteral | .numLiteral | .identifier => true
  | _ => false

def atom (location : Location) : List (Piece Operand) → Evaluation Value
  | [] => malformed .atom "a literal, identifier or call" location
  | [.tree inner] =>
      if isSimpleAtom inner.tree.production then inner.value
      else malformed .atom "a single literal, identifier or call" location
  | first :: rest =>
      if first.isToken "(" then
        match rest with
        | [inner, closing] =>
            if closing.isToken ")" then Operand.valueOf .atom location .expr inner
            else malformed .atom "`(` expr `)`" location
        | _ => malformed .atom "`(` expr `)`" location
      else malformed .atom "a single literal, identifier or call" location

def literal (kind : Kind) (tree : Tree) : Except Fault Value :=
  match tree.leafText? with
  | none => .error (.malformed tree.production "literal text" tree.location)
  | some text => located tree.location (Value.read text kind)

def identifier (names : Names) (tree : Tree) : Except Fault Value :=
  match tree.name? with
  | none => .error (.malformed .identifier "a name" tree.location)
  | some name =>
      match names.value? name with
      | some value => .ok value
      | none =>
          let fault := (Fault.of (.undefinedVariable name)).locate tree.location
          .error (if (names.callable? name).isSome then fault.withNote (.callIt name) else fault)

end Evaluation

end Reckon
