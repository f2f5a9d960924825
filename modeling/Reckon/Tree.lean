import Reckon.Source.Span

/-!
Concrete trees. A tree names the production it follows and keeps every piece it was read from,
punctuation included. The pieces of each production are

- a literal, an identifier and a newline: their one token;
- an atom: a call, a literal or an identifier, or an expression in parentheses;
- a factor: an atom, and after a caret the factor it is raised to;
- a term: factors with `*` and `/` between them; an expression: terms with `+` and `-` between them;
- a definition: `name : kind = expression`, where the kind may be left out;
- an assignment: `name = expression`; an echo: the keyword and an expression;
- the definition of a callable: `name : signature = expression`;
- a signature: `kind ( parameters )`; parameters: `name : kind` groups;
- a call: `name ( arguments )`; arguments: `name = expression` groups.

A comma stands between two groups and may follow the last.
-/

namespace Reckon

inductive Production where
  | intLiteral
  | numLiteral
  | identifier
  | atom
  | factor
  | term
  | expr
  | varDefine
  | varAssign
  | echo
  | parameters
  | signature
  | callableDefine
  | arguments
  | call
  | newline
deriving DecidableEq, Inhabited, Repr

namespace Production

def name : Production → String
  | .intLiteral => "int-literal"
  | .numLiteral => "num-literal"
  | .identifier => "identifier"
  | .atom => "atom"
  | .factor => "factor"
  | .term => "term"
  | .expr => "expr"
  | .varDefine => "var-define"
  | .varAssign => "var-assign"
  | .echo => "echo"
  | .parameters => "param-list"
  | .signature => "callable-type"
  | .callableDefine => "callable-define"
  | .arguments => "arg-list"
  | .call => "call"
  | .newline => "newline"

def isLeaf : Production → Bool
  | .intLiteral | .numLiteral | .identifier | .newline => true
  | _ => false

end Production

inductive Piece (α : Type) where
  | tree (tree : α)
  | token (text : String)
deriving DecidableEq

namespace Piece

variable {α : Type}

def tree? : Piece α → Option α
  | .tree inner => some inner
  | .token _ => none

def token? : Piece α → Option String
  | .tree _ => none
  | .token text => some text

def isToken (piece : Piece α) (text : String) : Bool := piece.token? == some text

end Piece

inductive Tree where
  | node (production : Production) (pieces : List (Piece Tree)) (location : Location)

namespace Tree

instance : Inhabited Tree := ⟨.node .newline [] .unknown⟩

def production : Tree → Production
  | .node production _ _ => production

def pieces : Tree → List (Piece Tree)
  | .node _ pieces _ => pieces

def location : Tree → Location
  | .node _ _ location => location

def span (tree : Tree) : Span := tree.location.span

def leaf (production : Production) (text : String) (location : Location) : Tree :=
  .node production [.token text] location

def leafText? : Tree → Option String
  | .node production [.token text] _ => if production.isLeaf then some text else none
  | _ => none

def name? (tree : Tree) : Option String :=
  if tree.production = .identifier then tree.leafText? else none

def withoutPieces : Tree → Tree
  | .node production _ location => .node production [] location

/-- What holds of a tree whenever it holds of all trees among its pieces holds of every tree. -/
@[induction_eliminator]
theorem induct {motive : Tree → Prop}
    (node : ∀ production pieces location,
      (∀ tree, .tree tree ∈ pieces → motive tree) → motive (.node production pieces location))
    (tree : Tree) : motive tree :=
  @Tree.rec motive (fun pieces => ∀ tree, .tree tree ∈ pieces → motive tree)
    (fun piece => ∀ tree, piece = .tree tree → motive tree)
    (fun production pieces location inside => node production pieces location inside)
    (fun _ member => nomatch member)
    (fun _ _ first rest tree member =>
      (List.mem_cons.1 member).elim (fun same => first tree same.symm) (rest tree))
    (fun _ holds _ same => by cases same; exact holds)
    (fun _ _ same => nomatch same)
    tree

end Tree

end Reckon
