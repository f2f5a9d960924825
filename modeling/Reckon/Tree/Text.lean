import Reckon.Tree
import Reckon.Text.Quoted

/-! The written form of a tree: its production and its pieces in parentheses, tokens quoted. -/

namespace Reckon

namespace Tree

mutual

def writeOn (before : String) : Tree → String
  | .node production pieces _ =>
      writePiecesOn (before ++ "(" ++ production.name) pieces ++ ")"
termination_by structural tree => tree

def writePiecesOn (before : String) : List (Piece Tree) → String
  | [] => before
  | .token text :: rest => writePiecesOn (before ++ " " ++ Text.quoted text) rest
  | .tree tree :: rest => writePiecesOn (writeOn (before ++ " ") tree) rest
termination_by structural pieces => pieces

end

def text (tree : Tree) : String := writeOn "" tree

end Tree

end Reckon
