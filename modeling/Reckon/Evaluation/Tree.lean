import Reckon.Evaluation.Call

/-!
Evaluation of trees. What a tree does is told by what its pieces do and by what names stand for.
Only a call leaves the tree, for the body of a callable, and so an evaluation is bounded by the
depth of its calls.
-/

namespace Reckon

namespace Evaluation

/-- What a tree does by its production and its pieces, those of an argument list given too. -/
def reduce (names : Names) (enter : Callable → List (String × Value) → Evaluation Value)
    (tree : Tree) (pieces given : List (Piece Operand)) : Evaluation Value :=
  match tree.production with
  | .expr => chain .expr tree.location pieces
  | .term => chain .term tree.location pieces
  | .factor => factor tree.location pieces
  | .atom => atom tree.location pieces
  | .call => call names enter tree.location pieces given
  | .intLiteral => ofExcept (literal .int tree)
  | .numLiteral => ofExcept (literal .num tree)
  | .identifier => ofExcept (identifier names tree)
  | other => malformed other "an expression" tree.location

mutual

def ofTree (names : Names) (enter : Callable → List (String × Value) → Evaluation Value) :
    Tree → Evaluation Value
  | .node production pieces location =>
      reduce names enter (.node production pieces location) (operands names enter pieces)
        (givenOperands names enter pieces)
termination_by structural tree => tree

def operands (names : Names) (enter : Callable → List (String × Value) → Evaluation Value) :
    List (Piece Tree) → List (Piece Operand)
  | [] => []
  | .token text :: rest => .token text :: operands names enter rest
  | .tree tree :: rest => .tree ⟨tree, ofTree names enter tree⟩ :: operands names enter rest
termination_by structural pieces => pieces

def givenOperands (names : Names) (enter : Callable → List (String × Value) → Evaluation Value) :
    List (Piece Tree) → List (Piece Operand)
  | [_, _, .tree (.node .arguments pieces _), _] => operands names enter pieces
  | _ => []
termination_by structural pieces => pieces

end

/-- Evaluates a tree in a scope, following calls to the given depth. The body of a callable is
evaluated in the caller's scope with the parameters bound in addition. -/
def within : Nat → Scope → Tree → Evaluation Value
  | 0 => fun _ _ _ => none
  | depth + 1 => fun scope =>
      ofTree scope.names fun callable bindings => within depth (scope.bind bindings) callable.body

def followedDepth : Nat := 1 <<< 62

-- a limit refuses the call beyond it, so following no deeper leaves nothing out
def allowance (scope : Scope) (calls : Calls) : Nat :=
  match calls.limit? with
  | some limit => limit - calls.depth + 1
  | none => followedDepth + scope.callables.size

end Evaluation

def Tree.evaluate (scope : Scope) (tree : Tree) : Evaluation Value := fun calls =>
  Evaluation.within (Evaluation.allowance scope calls) scope tree calls

end Reckon
