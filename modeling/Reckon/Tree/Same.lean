import Reckon.Tree

/-!
Sameness of trees, in structure and altogether. Trees among the pieces are compared last, so that a
chain of trees with one piece each is walked in a loop.
-/

namespace Reckon

namespace Tree

mutual

def agrees (sameLocation : Location → Location → Bool) : Tree → Tree → Bool
  | .node production pieces location, .node production' pieces' location' =>
      production == production' && sameLocation location location' &&
        piecesAgree sameLocation pieces pieces'
termination_by structural tree => tree

def piecesAgree (sameLocation : Location → Location → Bool) :
    List (Piece Tree) → List (Piece Tree) → Bool
  | [], [] => true
  | .token text :: rest, .token text' :: rest' =>
      text == text' && piecesAgree sameLocation rest rest'
  | .tree tree :: rest, .tree tree' :: rest' =>
      piecesAgree sameLocation rest rest' && tree.agrees sameLocation tree'
  | _, _ => false
termination_by structural pieces => pieces

end

def sameStructure : Tree → Tree → Bool := Tree.agrees fun _ _ => true

def same : Tree → Tree → Bool := Tree.agrees (· == ·)

end Tree

end Reckon
