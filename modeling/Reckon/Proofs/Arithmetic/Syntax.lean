import Reckon.Operator
import Reckon.Proofs.Grammar.Writing
import Reckon.Proofs.Number.Integers

/-!
Arithmetic without calls. An arithmetic tree has integers and variables for its leaves, and says by
its own shape how operators group. It is written with parentheses only where that differs from how
the grammar groups, and what is written are the leaves of one tree of the grammar.
-/

namespace Reckon

/-- Integers, variables, and operators between two smaller trees. -/
inductive Arithmetic where
  | literal (number : Int64)
  | name (text : String) (named : Scan.IsName text)
  | binary (operator : Operator) (left right : Arithmetic)

namespace Operator

/-- How tightly the operator binds: sums least and powers most. -/
def level : Operator → Nat
  | .add | .sub => 0
  | .mul | .div => 1
  | .pow => 2

/-- How tightly a left operand must bind to need no parentheses. Sums and products group to the
left. -/
def leftLevel : Operator → Nat
  | .add | .sub => 0
  | .mul | .div => 1
  | .pow => 3

/-- How tightly a right operand must bind to need no parentheses. Powers group to the right. -/
def rightLevel : Operator → Nat
  | .add | .sub => 1
  | .mul | .div => 2
  | .pow => 2

end Operator

namespace Arithmetic

/-- The words of a tree, in parentheses if it binds less tightly than required. -/
def words (required : Nat) : Arithmetic → List String
  | .literal number => [toString number.toInt]
  | .name text _ => [text]
  | .binary operator left right =>
      let inside := words operator.leftLevel left ++ operator.symbol ::
        words operator.rightLevel right
      if operator.level < required then "(" :: inside ++ [")"] else inside

/-- The source text of a tree, with a blank between any two words. -/
def text (tree : Arithmetic) : String := " ".intercalate (tree.words 0)

end Arithmetic

/-- What a tree is within the grammar, wherever it stands: the pieces of an expression and of a
term, a factor and an atom. -/
structure Forms where
  sums : List (Piece Tree)
  products : List (Piece Tree)
  power : Tree
  atom : Tree

namespace Forms

/-- An expression in parentheses. -/
def group (sums : List (Piece Tree)) : Tree :=
  .node .atom [.token "(", .tree (.node .expr sums .unknown), .token ")"] .unknown

def factor (atom : Tree) : Tree := .node .factor [.tree atom] .unknown

def term (products : List (Piece Tree)) : Tree := .node .term products .unknown

def ofAtom (atom : Tree) : Forms :=
  ⟨[.tree (term [.tree (factor atom)])], [.tree (factor atom)], factor atom, atom⟩

def ofPower (power : Tree) : Forms :=
  ⟨[.tree (term [.tree power])], [.tree power], power, group [.tree (term [.tree power])]⟩

def ofProducts (products : List (Piece Tree)) : Forms :=
  ⟨[.tree (term products)], products, factor (group [.tree (term products)]),
    group [.tree (term products)]⟩

def ofSums (sums : List (Piece Tree)) : Forms :=
  ⟨sums, [.tree (factor (group sums))], factor (group sums), group sums⟩

/-- An operator between two trees, in the chain that it continues. -/
def binary (operator : Operator) (left right : Forms) : Forms :=
  match operator with
  | .add | .sub =>
      .ofSums (left.sums ++ [.token operator.symbol, .tree (term right.products)])
  | .mul | .div => .ofProducts (left.products ++ [.token operator.symbol, .tree right.power])
  | .pow => .ofPower (.node .factor [.tree left.atom, .token "^", .tree right.power] .unknown)

end Forms

namespace Arithmetic

def forms : Arithmetic → Forms
  | .literal number =>
      .ofAtom (.node .atom [.tree (.leaf .intLiteral (toString number.toInt) .unknown)] .unknown)
  | .name text _ => .ofAtom (.node .atom [.tree (.leaf .identifier text .unknown)] .unknown)
  | .binary operator left right => .binary operator left.forms right.forms

/-- The expression that the tree is in the grammar. -/
def expression (tree : Arithmetic) : Tree := .node .expr tree.forms.sums .unknown

end Arithmetic

namespace Forms

/-- All forms are spelled with the words, in parentheses where they bind too loosely. -/
structure Writes (forms : Forms) (words : Nat → List String) : Prop where
  sums : (Tree.pieceLexemes .expr forms.sums).map Lexeme.text = words 0
  products : (Tree.pieceLexemes .term forms.products).map Lexeme.text = words 1
  power : forms.power.lexemes.map Lexeme.text = words 2
  atom : forms.atom.lexemes.map Lexeme.text = words 3

@[simp] theorem symbol_text (text : String) : (Lexeme.symbol text).text = text :=
  Word.of_symbol_text text

@[simp] theorem group_texts (sums : List (Piece Tree)) : (group sums).lexemes.map Lexeme.text =
    "(" :: (Tree.pieceLexemes .expr sums).map Lexeme.text ++ [")"] := by
  simp [group, Tree.lexemes, Tree.pieceLexemes, Lexeme.ofToken]

@[simp] theorem factor_texts (atom : Tree) :
    (factor atom).lexemes.map Lexeme.text = atom.lexemes.map Lexeme.text := by
  simp [factor, Tree.lexemes, Tree.pieceLexemes]

@[simp] theorem term_texts (products : List (Piece Tree)) :
    (term products).lexemes.map Lexeme.text =
      (Tree.pieceLexemes .term products).map Lexeme.text := by
  simp [term, Tree.lexemes]

theorem of_atom_writes {atom : Tree} {word : String}
    (written : atom.lexemes.map Lexeme.text = [word]) : (ofAtom atom).Writes fun _ => [word] := by
  constructor <;> simp [ofAtom, Tree.pieceLexemes, written]

theorem binary_writes {operator : Operator} {left right : Forms}
    {leftWords rightWords : Nat → List String} (leftWrites : left.Writes leftWords)
    (rightWrites : right.Writes rightWords) :
    (binary operator left right).Writes fun required =>
      let inside := leftWords operator.leftLevel ++ operator.symbol ::
        rightWords operator.rightLevel
      if operator.level < required then "(" :: inside ++ [")"] else inside := by
  cases operator with
  | add | sub =>
      constructor <;> simp [binary, ofSums, Tree.pieceLexemes, Lexeme.ofToken,
        leftWrites.sums, rightWrites.products, Operator.level, Operator.leftLevel,
        Operator.rightLevel]
  | mul | div =>
      constructor <;> simp [binary, ofProducts, Tree.pieceLexemes, Lexeme.ofToken,
        leftWrites.products, rightWrites.power, Operator.level, Operator.leftLevel,
        Operator.rightLevel]
  | pow =>
      have power : (Tree.node .factor [.tree left.atom, .token "^", .tree right.power]
          .unknown).lexemes.map Lexeme.text = leftWords 3 ++ "^" :: rightWords 2 := by
        simp [Tree.lexemes, Tree.pieceLexemes, Lexeme.ofToken, leftWrites.atom, rightWrites.power]
      constructor <;> simp [binary, ofPower, Tree.pieceLexemes, power, Operator.level,
        Operator.leftLevel, Operator.rightLevel, Operator.symbol]

/-- All forms are trees of the grammar. -/
structure IsSound (forms : Forms) : Prop where
  sums : IsChainOf .term ["+", "-"] forms.sums
  products : IsChainOf .factor ["*", "/"] forms.products
  power : forms.power.Is .factor
  atom : forms.atom.Is .atom

theorem chain_append {operand : Production} {signs : List String} {pieces : List (Piece Tree)}
    (chain : IsChainOf operand signs pieces) {sign : String} (allowed : sign ∈ signs) {tree : Tree}
    (is : tree.Is operand) :
    IsChainOf operand signs (pieces ++ [.token sign, .tree tree]) := by
  obtain ⟨chained, inside⟩ := chain
  induction chained with
  | last fits => exact chain_cons ⟨fits, inside _ (by simp)⟩ allowed (chain_single _ is)
  | next fits nextAllowed _ induction =>
      exact chain_cons ⟨fits, inside _ (by simp)⟩ nextAllowed
        (induction fun tree member => inside tree (by simp [member]))

theorem term_is {products : List (Piece Tree)} (chain : IsChainOf .factor ["*", "/"] products) :
    (term products).Is .term :=
  Tree.is_node _ (.term chain.chained) chain.inside (by simp)

theorem expr_is {sums : List (Piece Tree)} (chain : IsChainOf .term ["+", "-"] sums) :
    (Tree.node .expr sums .unknown).Is .expr :=
  Tree.is_node _ (.expr chain.chained) chain.inside (by simp)

theorem group_is {sums : List (Piece Tree)} (chain : IsChainOf .term ["+", "-"] sums) :
    (group sums).Is .atom := by
  have inner := expr_is chain
  refine Tree.is_node _ (.group inner.produced) ?_ (by simp)
  simpa using inner.wellFormed

theorem factor_is {atom : Tree} (is : atom.Is .atom) : (factor atom).Is .factor :=
  Tree.is_node _ (.factor is.produced) (by simpa using is.wellFormed) (by simp)

theorem of_power_sound {power : Tree} (is : power.Is .factor) : (ofPower power).IsSound := by
  have products := chain_single ["*", "/"] is
  have sums := chain_single ["+", "-"] (term_is products)
  exact ⟨sums, products, is, group_is sums⟩

theorem of_atom_sound {atom : Tree} (is : atom.Is .atom) : (ofAtom atom).IsSound := by
  have sound := of_power_sound (factor_is is)
  exact ⟨sound.sums, sound.products, sound.power, is⟩

theorem of_sums_sound {sums : List (Piece Tree)} (chain : IsChainOf .term ["+", "-"] sums) :
    (ofSums sums).IsSound := by
  have sound := of_atom_sound (group_is chain)
  exact ⟨chain, sound.products, sound.power, sound.atom⟩

theorem of_products_sound {products : List (Piece Tree)}
    (chain : IsChainOf .factor ["*", "/"] products) : (ofProducts products).IsSound := by
  have sums := chain_single ["+", "-"] (term_is chain)
  have sound := of_atom_sound (group_is sums)
  exact ⟨sums, chain, sound.power, sound.atom⟩

theorem binary_sound {operator : Operator} {left right : Forms} (leftSound : left.IsSound)
    (rightSound : right.IsSound) : (binary operator left right).IsSound := by
  have sums : ∀ {sign : String}, sign ∈ ["+", "-"] →
      (ofSums (left.sums ++ [.token sign, .tree (term right.products)])).IsSound := fun allowed =>
    of_sums_sound (chain_append leftSound.sums allowed (term_is rightSound.products))
  have products : ∀ {sign : String}, sign ∈ ["*", "/"] →
      (ofProducts (left.products ++ [.token sign, .tree right.power])).IsSound := fun allowed =>
    of_products_sound (chain_append leftSound.products allowed rightSound.power)
  cases operator with
  | add => exact sums (by decide)
  | sub => exact sums (by decide)
  | mul => exact products (by decide)
  | div => exact products (by decide)
  | pow =>
      refine of_power_sound (Tree.is_node _ (.power leftSound.atom.produced
        rightSound.power.produced) ?_ (by simp))
      simpa using ⟨leftSound.atom.wellFormed, rightSound.power.wellFormed⟩

end Forms

namespace Arithmetic

theorem forms_write (tree : Arithmetic) :
    tree.forms.Writes fun required => tree.words required := by
  induction tree with
  | literal number =>
      apply Forms.of_atom_writes
      simp [Tree.lexemes, Tree.pieceLexemes, Tree.leaf, Lexeme.ofToken, Lexeme.of_number_text]
  | name text =>
      apply Forms.of_atom_writes
      simp [Tree.lexemes, Tree.pieceLexemes, Tree.leaf, Lexeme.name, Lexeme.text]
  | binary operator left right leftWrites rightWrites =>
      exact Forms.binary_writes leftWrites rightWrites

theorem forms_sound (tree : Arithmetic) : tree.forms.IsSound := by
  induction tree with
  | literal number =>
      have leaf : (Tree.leaf .intLiteral (toString number.toInt) .unknown).Is .intLiteral :=
        Tree.is_node _ (.intLiteral (Number.signed_of_integer _)) (by simp) (by simp)
      exact Forms.of_atom_sound (Tree.is_atom_of leaf (by simp))
  | name text named =>
      have leaf : (Tree.leaf .identifier text .unknown).Is .identifier :=
        Tree.is_node _ (.identifier named) (by simp) (by simp)
      exact Forms.of_atom_sound (Tree.is_atom_of leaf (by simp))
  | binary operator left right leftSound rightSound =>
      exact Forms.binary_sound leftSound rightSound

/-- The text of a tree is that of a program with one expression. -/
theorem text_eq_written (tree : Arithmetic) : tree.text = written [tree.expression] := by
  rw [text, written, ← (forms_write tree).sums]
  simp [Tree.forestLexemes, expression, Tree.lexemes]

example : (binary .pow (binary .sub (literal 1) (binary .sub (literal 2) (literal (-3))))
    (literal 2)).text = "( 1 - ( 2 - -3 ) ) ^ 2" := by decide

theorem expression_program (tree : Arithmetic) : IsProgram [tree.expression] := by
  have is := Forms.expr_is (forms_sound tree).sums
  refine ⟨?_, .singleton _, ?_, ?_⟩
  · simp [expression, is.produced]
  · simpa [expression] using is.wellFormed.shaped
  · simpa [expression] using is.wellFormed.distinct

/-- The text of a tree is read as an expression that is the tree in the grammar. -/
theorem parse_text {tree : Arithmetic}
    (fits : Text.byteSize tree.text.toList ≤ Span.maxOffset) :
    ∃ parsed, parse tree.text = .ok [parsed] ∧ parsed.Alike tree.expression := by
  rw [text_eq_written] at fits ⊢
  obtain ⟨forest, read, same⟩ := parse_written (expression_program tree) fits
  rw [List.map_singleton] at same
  obtain ⟨parsed, rfl, alike⟩ := List.map_eq_singleton_iff.mp same
  exact ⟨parsed, read, alike⟩

/-- A text that spans do not reach over is not read. -/
theorem refuse_text {tree : Arithmetic}
    (beyond : Span.maxOffset < Text.byteSize tree.text.toList) :
    ∃ error, parse tree.text = .error error ∧ error.code = .sourceTooLarge := by
  rw [text_eq_written] at beyond ⊢
  obtain ⟨body, stop, scanned, _⟩ := unbounded_written (expression_program tree)
  exact parse_of_oversized scanned beyond

end Arithmetic

end Reckon
