import Reckon.Proofs.Evaluation.Parts

/-!
Trees built by hand. A tree that no text was read for is admitted if it has the pieces of the table,
but for two things: a literal and an identifier may hold any token, and in a list of groups a comma
may stand behind each group or be left out.
-/

namespace Reckon

namespace Piece

variable {α : Type} {holds : α → Prop} {pieces : List (Piece α)}

/-- All trees among the pieces have the property. -/
def Every (holds : α → Prop) (pieces : List (Piece α)) : Prop :=
  ∀ inner, .tree inner ∈ pieces → holds inner

@[simp] theorem every_nil : Every holds [] := nofun

@[simp] theorem every_token {text : String} :
    Every holds (.token text :: pieces) ↔ Every holds pieces := by
  simp [Every]

@[simp] theorem every_tree {tree : α} :
    Every holds (.tree tree :: pieces) ↔ holds tree ∧ Every holds pieces := by
  simp [Every]

theorem every_of_after_comma (every : Every holds (afterComma pieces)) : Every holds pieces :=
  fun inner member => every inner (mem_after_comma member)

end Piece

namespace Shape

section

variable {α : Type} (productionOf : α → Production)

/-- Groups of an identifier, a mark and a tree, with a comma behind each group or without one. -/
inductive Grouped (mark : String) (value : Production) : List (Piece α) → Prop where
  | none : Grouped mark value []
  | plain {name tree : α} {rest : List (Piece α)} (named : productionOf name = .identifier)
      (fits : productionOf tree = value) (others : Grouped mark value rest) :
      Grouped mark value (.tree name :: .token mark :: .tree tree :: rest)
  | withComma {name tree : α} {rest : List (Piece α)} (named : productionOf name = .identifier)
      (fits : productionOf tree = value) (others : Grouped mark value rest) :
      Grouped mark value (.tree name :: .token mark :: .tree tree :: .token "," :: rest)

/-- The pieces that evaluation admits in a tree of the production. -/
inductive Admits : Production → List (Piece α) → Prop where
  | leaf {production : Production} {text : String}
      (atomic : production ∈ [.intLiteral, .numLiteral, .identifier]) :
      Admits production [.token text]
  | parameters {pieces : List (Piece α)} (grouped : Grouped productionOf ":" .identifier pieces) :
      Admits .parameters pieces
  | arguments {pieces : List (Piece α)} (grouped : Grouped productionOf "=" .expr pieces) :
      Admits .arguments pieces
  | table {production : Production} {pieces : List (Piece α)}
      (allowed : Allows productionOf production pieces) : Admits production pieces

end

section

variable {α β : Type} {pieces : List (Piece α)}

/-- What goes on behind a comma, or at once, goes on behind one more group. -/
theorem Grouped.cons {productionOf : α → Production} {mark : String} {value : Production}
    {name tree : α} (named : productionOf name = .identifier) (fits : productionOf tree = value)
    (others : Grouped productionOf mark value (Piece.afterComma pieces)) :
    Grouped productionOf mark value (.tree name :: .token mark :: .tree tree :: pieces) := by
  cases pieces with
  | nil => exact .plain named fits others
  | cons piece rest =>
      rw [Piece.afterComma] at others
      split at others
      · next comma =>
          rw [Piece.eq_token_of_is_token comma]
          exact .withComma named fits others
      · exact .plain named fits others

variable (productionOf : β → Production) (function : α → β)

theorem Chained.map {operand : Production} {signs : List String}
    (chained : Chained (fun inner => productionOf (function inner)) operand signs pieces) :
    Chained productionOf operand signs (pieces.map (Piece.map function)) := by
  induction chained with
  | last fits => exact .last fits
  | next fits allowed _ induction => exact .next fits allowed induction

theorem Listed.map {mark : String} {value : Production}
    (listed : Listed (fun inner => productionOf (function inner)) mark value pieces) :
    Listed productionOf mark value (pieces.map (Piece.map function)) := by
  induction listed with
  | none => exact .none
  | last named fits => exact .last named fits
  | next named fits _ induction => exact .next named fits induction

theorem Grouped.map {mark : String} {value : Production}
    (grouped : Grouped (fun inner => productionOf (function inner)) mark value pieces) :
    Grouped productionOf mark value (pieces.map (Piece.map function)) := by
  induction grouped with
  | none => exact .none
  | plain named fits _ induction => exact .plain named fits induction
  | withComma named fits _ induction => exact .withComma named fits induction

/-- The table looks at the productions of the trees among the pieces only. -/
theorem Allows.map {production : Production}
    (allowed : Allows (fun inner => productionOf (function inner)) production pieces) :
    Allows productionOf production (pieces.map (Piece.map function)) := by
  cases allowed with
  | intLiteral read => exact .intLiteral read
  | numLiteral read => exact .numLiteral read
  | identifier read => exact .identifier read
  | newline => exact .newline
  | simple fits => exact .simple fits
  | group fits => exact .group fits
  | factor fits => exact .factor fits
  | power based raised => exact .power based raised
  | term chained => exact .term (chained.map productionOf function)
  | expr chained => exact .expr (chained.map productionOf function)
  | define named valued => exact .define named valued
  | defineAs named declared valued => exact .defineAs named declared valued
  | assign named valued => exact .assign named valued
  | echo valued => exact .echo valued
  | defineCallable named signed valued => exact .defineCallable named signed valued
  | signature declared listed => exact .signature declared listed
  | parameters listed => exact .parameters (listed.map productionOf function)
  | call named listed => exact .call named listed
  | arguments listed => exact .arguments (listed.map productionOf function)

theorem Admits.map {production : Production}
    (admitted : Admits (fun inner => productionOf (function inner)) production pieces) :
    Admits productionOf production (pieces.map (Piece.map function)) := by
  cases admitted with
  | leaf atomic => exact .leaf atomic
  | parameters grouped => exact .parameters (grouped.map productionOf function)
  | arguments grouped => exact .arguments (grouped.map productionOf function)
  | table allowed => exact .table (allowed.map productionOf function)

end

end Shape

namespace Tree

/-- The tree itself has the pieces that evaluation admits. -/
def Admitted (tree : Tree) : Prop := Shape.Admits Tree.production tree.production tree.pieces

/-- A leaf holds one token and no tree. -/
theorem pieces_of_leaf {tree : Tree} (leaf : tree.leafText?.isSome = true) :
    ∃ text, tree.pieces = [.token text] := by
  obtain ⟨production, pieces, location⟩ := tree
  unfold leafText? at leaf
  split at leaf
  · next same =>
      cases same
      exact ⟨_, rfl⟩
  · cases leaf

theorem admitted_of_leaf {tree : Tree} (leaf : tree.leafText?.isSome = true)
    (atomic : tree.production ∈ [.intLiteral, .numLiteral, .identifier]) :
    tree.Everywhere Admitted := by
  obtain ⟨text, held⟩ := pieces_of_leaf leaf
  obtain ⟨production, pieces, location⟩ := tree
  cases held
  exact everywhere_node.mpr ⟨.leaf atomic, Piece.every_token.mpr Piece.every_nil⟩

theorem admitted_of_name {tree : Tree} {name : String} (named : tree.name? = some name) :
    tree.Everywhere Admitted := by
  apply admitted_of_leaf (leaf_of_name named)
  rw [production_of_name named]
  decide

end Tree

end Reckon
