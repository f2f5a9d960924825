import Reckon.Token
import Reckon.Tree

/-!
Constructs that have been begun and not finished. They record the tokens read so far, and building
a tree from one says what the tree consists of. Lists of parts hold the latest part first.
-/

namespace Reckon

namespace Tree

def ofToken (production : Production) (token : Token) : Tree :=
  leaf production token.text token.location

def atomOf (inner : Tree) : Tree := .node .atom [.tree inner] inner.location

def group (opening : Token) (inner : Tree) (closing : Token) : Tree :=
  .node .atom [.token opening.text, .tree inner, .token closing.text]
    (opening.location.through closing.location)

def factorOf (base : Tree) : Tree := .node .factor [.tree base] base.location

def power (base exponent : Tree) : Tree :=
  .node .factor [.tree base, .token "^", .tree exponent]
    (base.location.through exponent.location)

end Tree

def finishFactor (bases : List Tree) (atom : Tree) : Tree :=
  bases.foldl (fun exponent base => .power base exponent) (.factorOf atom)

/-- A flat chain of operands, each but the last with the operator after it. -/
def finishChain (production : Production) (earlier : List (Tree × Token)) (last : Tree) : Tree :=
  .node production
    (earlier.foldl (fun pieces (operand, operator) =>
      .tree operand :: .token operator.text :: pieces) [.tree last])
    (earlier.foldl (fun location (operand, _) => operand.location.through location) last.location)

/-- An expression whose next atom is due: the finished terms with the additive operators after
them, the finished factors of the next term with the multiplicative operators after them, and the
atoms of the next factor that a caret follows. -/
structure Chain where
  terms : List (Tree × Token)
  factors : List (Tree × Token)
  bases : List Tree

namespace Chain

def empty : Chain := ⟨[], [], []⟩

def raise (chain : Chain) (atom : Tree) : Chain := { chain with bases := atom :: chain.bases }

def finishTerm (chain : Chain) (atom : Tree) : Tree :=
  finishChain .term chain.factors (finishFactor chain.bases atom)

def multiply (chain : Chain) (atom : Tree) (operator : Token) : Chain :=
  { chain with factors := (finishFactor chain.bases atom, operator) :: chain.factors, bases := [] }

def add (chain : Chain) (atom : Tree) (operator : Token) : Chain :=
  ⟨(chain.finishTerm atom, operator) :: chain.terms, [], []⟩

def finish (chain : Chain) (atom : Tree) : Tree :=
  finishChain .expr chain.terms (chain.finishTerm atom)

end Chain

/-- One group of a parameter or argument list: a name, what is said of it, and the comma after. -/
structure ListItem where
  name : Token
  value : Tree
  comma? : Option Token

namespace ListItem

def pieces (mark : String) (item : ListItem) : List (Piece Tree) :=
  .tree (.ofToken .identifier item.name) :: .token mark :: .tree item.value ::
    (item.comma?.map fun comma => .token comma.text).toList

def location (item : ListItem) : Location :=
  item.name.location.through ((item.comma?.map (·.location)).getD item.value.location)

end ListItem

/-- The tree of a list before its closing parenthesis; an empty list stands where that starts. -/
def finishList (production : Production) (mark : String) (items : List ListItem) (closing : Token) :
    Tree :=
  .node production
    (items.foldl (fun pieces item => item.pieces mark ++ pieces) [])
    (match items with
      | [] => ⟨.point closing.span.start, closing.location.position⟩
      | last :: earlier =>
          earlier.foldl (fun location item => item.location.through location) last.location)

/-- The first name, in the order written, that repeats one of the names before it. -/
def firstRepeated (seen : List String) : List Token → Option Token
  | [] => none
  | name :: rest =>
      if name.text ∈ seen then some name else firstRepeated (name.text :: seen) rest

structure OpenCall where
  callee : Token
  opening : Token
  arguments : List ListItem

namespace OpenCall

def repeated? (call : OpenCall) : Option Token :=
  firstRepeated [] (call.arguments.reverse.map (·.name))

def finish (call : OpenCall) (closing : Token) : Tree :=
  .atomOf (.node .call
    [.tree (.ofToken .identifier call.callee), .token call.opening.text,
      .tree (finishList .arguments "=" call.arguments closing), .token closing.text]
    (call.callee.location.through closing.location))

end OpenCall

structure OpenSignature where
  name : Token
  kind : Token
  opening : Token
  parameters : List ListItem

namespace OpenSignature

def finish (signature : OpenSignature) (closing : Token) : Tree :=
  .node .signature
    [.tree (.ofToken .identifier signature.kind), .token signature.opening.text,
      .tree (finishList .parameters ":" signature.parameters closing), .token closing.text]
    (signature.kind.location.through closing.location)

end OpenSignature

/-- What stands before the expression that ends a statement. -/
inductive Head where
  | bare
  | echo (keyword : Token)
  | assign (name : Token)
  | define (name : Token) (kind? : Option Token)
  | callable (name : Token) (signature : Tree)

namespace Head

def finish : Head → Tree → Tree
  | .bare, value => value
  | .echo keyword, value =>
      .node .echo [.token keyword.text, .tree value] (keyword.location.through value.location)
  | .assign name, value =>
      .node .varAssign [.tree (.ofToken .identifier name), .token "=", .tree value]
        (name.location.through value.location)
  | .define name none, value =>
      .node .varDefine
        [.tree (.ofToken .identifier name), .token ":", .token "=", .tree value]
        (name.location.through value.location)
  | .define name (some kind), value =>
      .node .varDefine
        [.tree (.ofToken .identifier name), .token ":", .tree (.ofToken .identifier kind),
          .token "=", .tree value]
        (name.location.through value.location)
  | .callable name signature, value =>
      .node .callableDefine
        [.tree (.ofToken .identifier name), .token ":", .tree signature, .token "=", .tree value]
        (name.location.through value.location)

end Head

/-- What an expression may stand inside, with the expression that goes on around it. -/
inductive Opening where
  | group (opening : Token) (around : Chain)
  | argument (call : OpenCall) (name : Token) (around : Chain)

/-- Somewhere in the expression of a statement: what stands before it, what has been opened around
the innermost expression, innermost first, and that expression as far as it has been read. -/
structure Inside where
  head : Head
  openings : List Opening
  chain : Chain

namespace Inside

def start (head : Head) : Inside := ⟨head, [], .empty⟩

def enter (inside : Inside) (opening : Chain → Opening) : Inside :=
  { inside with openings := opening inside.chain :: inside.openings, chain := .empty }

end Inside

inductive Stage where
  | start
  | named (name : Token)
  | definition (name : Token)
  | kindRead (name kind : Token)
  | parameterDue (signature : OpenSignature)
  | parameterNamed (signature : OpenSignature) (name : Token)
  | parameterKindDue (signature : OpenSignature) (name : Token)
  | parameterRead (signature : OpenSignature) (name kind : Token)
  | signatureRead (name : Token) (signature : Tree)
  | atomDue (inside : Inside)
  | signRead (inside : Inside) (sign : Token)
  /-- An identifier where an atom was due; it may be the name of a callable. -/
  | nameRead (inside : Inside) (name : Token)
  | atomRead (inside : Inside) (atom : Tree)
  | argumentDue (inside : Inside) (call : OpenCall)
  | argumentNamed (inside : Inside) (call : OpenCall) (name : Token)

end Reckon
