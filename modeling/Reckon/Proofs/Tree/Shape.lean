import Mathlib.Data.List.Chain
import Reckon.Proofs.Token.Text
import Reckon.Tree

/-!
The shapes of trees. A table says of every production which pieces its trees have; it looks at the
productions of the trees among the pieces and no further. A program is a list of trees all of
whose nodes follow the table.
-/

namespace Reckon

namespace Piece

variable {α β : Type}

def map (f : α → β) : Piece α → Piece β
  | .tree inner => .tree (f inner)
  | .token text => .token text

end Piece

namespace Shape

variable {α : Type} (productionOf : α → Production)

/-- Operands with one of the signs between any two. -/
inductive Chained (operand : Production) (signs : List String) : List (Piece α) → Prop where
  | last {tree : α} (fits : productionOf tree = operand) : Chained operand signs [.tree tree]
  | next {tree : α} {sign : String} {rest : List (Piece α)} (fits : productionOf tree = operand)
      (allowed : sign ∈ signs) (others : Chained operand signs rest) :
      Chained operand signs (.tree tree :: .token sign :: rest)

/-- Groups of an identifier, a mark and a tree, with a comma between any two groups; one may
follow the last. -/
inductive Listed (mark : String) (value : Production) : List (Piece α) → Prop where
  | none : Listed mark value []
  | last {name tree : α} (named : productionOf name = .identifier)
      (fits : productionOf tree = value) : Listed mark value [.tree name, .token mark, .tree tree]
  | next {name tree : α} {rest : List (Piece α)} (named : productionOf name = .identifier)
      (fits : productionOf tree = value) (others : Listed mark value rest) :
      Listed mark value (.tree name :: .token mark :: .tree tree :: .token "," :: rest)

/-- A text of the class, or one with a sign before it. -/
def IsSigned (unsigned : List Char → Prop) (text : String) : Prop :=
  ∃ sign digits, text.toList = sign ++ digits ∧ Scan.IsSign sign ∧ unsigned digits

/-- The pieces that the trees of each production have. -/
inductive Allows : Production → List (Piece α) → Prop where
  | intLiteral {text : String} (read : IsSigned Scan.IsDigits text) :
      Allows .intLiteral [.token text]
  | numLiteral {text : String} (read : IsSigned Scan.IsReal text) :
      Allows .numLiteral [.token text]
  | identifier {text : String} (read : Scan.IsName text) : Allows .identifier [.token text]
  | newline : Allows .newline [.token "\n"]
  | simple {inner : α}
      (fits : productionOf inner ∈ [.call, .intLiteral, .numLiteral, .identifier]) :
      Allows .atom [.tree inner]
  | group {inner : α} (fits : productionOf inner = .expr) :
      Allows .atom [.token "(", .tree inner, .token ")"]
  | factor {base : α} (fits : productionOf base = .atom) : Allows .factor [.tree base]
  | power {base exponent : α} (based : productionOf base = .atom)
      (raised : productionOf exponent = .factor) :
      Allows .factor [.tree base, .token "^", .tree exponent]
  | term {pieces : List (Piece α)} (chained : Chained productionOf .factor ["*", "/"] pieces) :
      Allows .term pieces
  | expr {pieces : List (Piece α)} (chained : Chained productionOf .term ["+", "-"] pieces) :
      Allows .expr pieces
  | define {name value : α} (named : productionOf name = .identifier)
      (valued : productionOf value = .expr) :
      Allows .varDefine [.tree name, .token ":", .token "=", .tree value]
  | defineAs {name kind value : α} (named : productionOf name = .identifier)
      (declared : productionOf kind = .identifier) (valued : productionOf value = .expr) :
      Allows .varDefine [.tree name, .token ":", .tree kind, .token "=", .tree value]
  | assign {name value : α} (named : productionOf name = .identifier)
      (valued : productionOf value = .expr) :
      Allows .varAssign [.tree name, .token "=", .tree value]
  | echo {value : α} (valued : productionOf value = .expr) :
      Allows .echo [.token "echo", .tree value]
  | defineCallable {name signature body : α} (named : productionOf name = .identifier)
      (signed : productionOf signature = .signature) (valued : productionOf body = .expr) :
      Allows .callableDefine
        [.tree name, .token ":", .tree signature, .token "=", .tree body]
  | signature {kind list : α} (declared : productionOf kind = .identifier)
      (listed : productionOf list = .parameters) :
      Allows .signature [.tree kind, .token "(", .tree list, .token ")"]
  | parameters {pieces : List (Piece α)} (listed : Listed productionOf ":" .identifier pieces) :
      Allows .parameters pieces
  | call {callee list : α} (named : productionOf callee = .identifier)
      (listed : productionOf list = .arguments) :
      Allows .call [.tree callee, .token "(", .tree list, .token ")"]
  | arguments {pieces : List (Piece α)} (listed : Listed productionOf "=" .expr pieces) :
      Allows .arguments pieces

end Shape

namespace Tree

/-- A tree is the other or stands somewhere inside it. -/
inductive PartOf (node : Tree) : Tree → Prop where
  | whole : PartOf node node
  | inside {production : Production} {pieces : List (Piece Tree)} {location : Location}
      {tree : Tree} (member : .tree tree ∈ pieces) (part : PartOf node tree) :
      PartOf node (.node production pieces location)

/-- A property that a tree has together with all trees inside it. -/
def Everywhere (property : Tree → Prop) (tree : Tree) : Prop :=
  ∀ node : Tree, node.PartOf tree → property node

theorem everywhere_node {property : Tree → Prop} {production : Production}
    {pieces : List (Piece Tree)} {location : Location} :
    (Tree.node production pieces location).Everywhere property ↔
      property (.node production pieces location) ∧
        ∀ tree, .tree tree ∈ pieces → tree.Everywhere property := by
  constructor
  · intro holds
    exact ⟨holds _ .whole, fun tree member node part => holds node (.inside member part)⟩
  · rintro ⟨here, inside⟩ node part
    cases part with
    | whole => exact here
    | inside member part => exact inside _ member node part

theorem PartOf.trans {first second third : Tree} (inner : first.PartOf second)
    (outer : second.PartOf third) : first.PartOf third := by
  induction outer with
  | whole => exact inner
  | inside member _ induction => exact .inside member induction

/-- What holds of a tree whenever it holds of the trees among its pieces and among the pieces of
those holds of every tree. A call needs both: the expressions of its arguments are two levels
down. -/
theorem induct_two_levels {motive : Tree → Prop}
    (node : ∀ production pieces location, (∀ inner, .tree inner ∈ pieces → motive inner) →
      (∀ list, .tree list ∈ pieces → ∀ inner, .tree inner ∈ list.pieces → motive inner) →
      motive (.node production pieces location))
    (tree : Tree) : motive tree := by
  have both : motive tree ∧ ∀ inner, .tree inner ∈ tree.pieces → motive inner := by
    induction tree with
    | node production pieces location induction =>
        have inside : ∀ inner, .tree inner ∈ pieces → motive inner :=
          fun inner member => (induction inner member).1
        exact ⟨node production pieces location inside
          fun list member => (induction list member).2, inside⟩
  exact both.1

/-- The pieces are those that the table gives the production of the tree. -/
def FollowsTable (tree : Tree) : Prop :=
  Shape.Allows Tree.production tree.production tree.pieces

@[simp] theorem leaf_production (production : Production) (text : String) (location : Location) :
    (leaf production text location).production = production := rfl

theorem text_of_name {tree : Tree} (shaped : tree.FollowsTable)
    (named : tree.production = .identifier) :
    ∃ text location, tree = .leaf .identifier text location ∧ Scan.IsName text := by
  obtain ⟨production, pieces, location⟩ := tree
  cases named
  cases shaped with
  | identifier read => exact ⟨_, location, rfl, read⟩

def namesAmong (pieces : List (Piece Tree)) : List String :=
  pieces.filterMap fun piece => piece.tree?.bind Tree.name?

@[simp] theorem names_among_token (text : String) (pieces : List (Piece Tree)) :
    namesAmong (.token text :: pieces) = namesAmong pieces := rfl

@[simp] theorem names_among_tree (tree : Tree) (pieces : List (Piece Tree)) :
    namesAmong (.tree tree :: pieces) = tree.name?.toList ++ namesAmong pieces := by
  rw [namesAmong, List.filterMap_cons, Piece.tree?, Option.bind_some]
  cases tree.name? <;> rfl

theorem names_among_group {mark text : String} {location : Location} {value : Tree}
    {pieces : List (Piece Tree)} (valued : value.production = .expr) :
    namesAmong
      (.tree (.leaf .identifier text location) :: .token mark :: .tree value :: pieces) =
      text :: namesAmong pieces := by
  have unnamed : value.name? = none := by
    rw [name?, valued]
    rfl
  have named : (leaf .identifier text location).name? = some text := rfl
  simp [unnamed, named]

/-- No argument list gives a name twice. -/
def NamesOnce (tree : Tree) : Prop :=
  tree.production = .arguments → (namesAmong tree.pieces).Nodup

/-- One of the trees is a newline. -/
def Apart (first second : Tree) : Prop :=
  first.production = .newline ∨ second.production = .newline

end Tree

/-- The trees of a program: statements with newlines between them, whose nodes all follow the table
and give no argument twice. -/
structure IsProgram (forest : List Tree) : Prop where
  topLevel : ∀ tree ∈ forest, tree.production ∈
    [.newline, .echo, .varDefine, .varAssign, .callableDefine, .expr]
  separated : forest.IsChain Tree.Apart
  shaped : ∀ tree ∈ forest, tree.Everywhere Tree.FollowsTable
  distinct : ∀ tree ∈ forest, tree.Everywhere Tree.NamesOnce

end Reckon
