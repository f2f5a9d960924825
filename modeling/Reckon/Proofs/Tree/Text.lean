import Reckon.Proofs.Text.Quoted
import Reckon.Proofs.Tree.Unlocated
import Reckon.Tree.Text

/-!
The written form of a tree says everything of the tree but its locations. The name of a production
ends at a blank or a parenthesis, a token at its closing quote, and a tree at its own parenthesis,
whatever the texts of the tokens inside. So no tree in front of something is taken for another.
-/

namespace Reckon

namespace Production

def all : List Production :=
  [.intLiteral, .numLiteral, .identifier, .atom, .factor, .term, .expr, .varDefine, .varAssign,
    .echo, .parameters, .signature, .callableDefine, .arguments, .call, .newline]

theorem find_name (production : Production) :
    all.find? (·.name == production.name) = some production := by
  cases production <;> decide

theorem eq_of_name {production other : Production} (same : production.name = other.name) :
    production = other := by
  have found := find_name production
  rw [same, find_name other] at found
  exact (Option.some.inj found).symm

/-- Names of productions are made of letters and hyphens. -/
theorem name_unbroken (production : Production) :
    ∀ char ∈ production.name.toList, (char != ' ' && char != ')') = true := by
  apply List.all_eq_true.mp
  cases production <;> rfl

end Production

namespace Tree

/-- What is written of pieces, each behind a blank. -/
def piecesText : List (Piece Tree) → List Char
  | [] => []
  | .token text :: rest => ' ' :: (Text.quoted text).toList ++ piecesText rest
  | .tree tree :: rest => ' ' :: tree.text.toList ++ piecesText rest

theorem write_pieces_on_eq (pieces : List (Piece Tree))
    (inside : ∀ tree, .tree tree ∈ pieces → ∀ before,
      (writeOn before tree).toList = before.toList ++ tree.text.toList) (before : String) :
    (writePiecesOn before pieces).toList = before.toList ++ piecesText pieces := by
  induction pieces generalizing before with
  | nil => simp [writePiecesOn, piecesText]
  | cons piece pieces induction =>
      have rest := induction fun tree member => inside tree (List.mem_cons_of_mem _ member)
      cases piece with
      | token text => simp [writePiecesOn, piecesText, rest]
      | tree tree => simp [writePiecesOn, piecesText, rest, inside tree (List.mem_cons_self ..)]

theorem write_on_eq (tree : Tree) (before : String) :
    (writeOn before tree).toList = before.toList ++ tree.text.toList := by
  induction tree generalizing before with
  | node production pieces place inside =>
      simp only [text, writeOn, String.toList_append, write_pieces_on_eq pieces inside,
        List.append_assoc]
      rfl

theorem text_node (production : Production) (pieces : List (Piece Tree)) (place : Location) :
    (Tree.node production pieces place).text.toList =
      '(' :: (production.name.toList ++ piecesText pieces ++ [')']) := by
  rw [text, writeOn, String.toList_append,
    write_pieces_on_eq pieces fun tree _ => write_on_eq tree]
  simp

/-- Behind the name of a production there is a blank or the closing parenthesis. -/
theorem take_name (production : Production) (pieces : List (Piece Tree)) (rest : List Char) :
    (production.name.toList ++ (piecesText pieces ++ ')' :: rest)).takeWhile
      (fun char => char != ' ' && char != ')') = production.name.toList := by
  rw [List.takeWhile_append_of_pos production.name_unbroken]
  cases pieces with
  | nil => simp [piecesText]
  | cons piece pieces => cases piece <;> simp [piecesText]

variable {pieces others : List (Piece Tree)} {rest rest' : List Char}

theorem pieces_text_behind
    (inside : ∀ tree, .tree tree ∈ pieces → ∀ (other : Tree) (rest rest' : List Char),
      tree.text.toList ++ rest = other.text.toList ++ rest' → tree.Alike other ∧ rest = rest')
    (same : piecesText pieces ++ ')' :: rest = piecesText others ++ ')' :: rest') :
    AlikePieces pieces others ∧ rest = rest' := by
  induction pieces generalizing others with
  | nil =>
      cases others with
      | nil => exact ⟨rfl, List.tail_eq_of_cons_eq same⟩
      | cons other others => cases other <;> simp [piecesText] at same
  | cons piece pieces induction =>
      have further := fun tree member => inside tree (List.mem_cons_of_mem piece member)
      cases others with
      | nil => cases piece <;> simp [piecesText] at same
      | cons other others =>
          cases piece with
          | token text =>
              cases other with
              | token second =>
                  simp only [piecesText, List.cons_append, List.append_assoc, List.cons.injEq,
                    true_and] at same
                  obtain ⟨rfl, behind⟩ := Text.quoted_behind same
                  obtain ⟨alike, behind⟩ := induction further behind
                  exact ⟨alike_cons_token alike, behind⟩
              | tree second =>
                  cases second
                  simp [piecesText, text_node, Text.quoted] at same
          | tree first =>
              cases other with
              | token text =>
                  cases first
                  simp [piecesText, text_node, Text.quoted] at same
              | tree second =>
                  simp only [piecesText, List.cons_append, List.append_assoc, List.cons.injEq,
                    true_and] at same
                  obtain ⟨here, behind⟩ := inside first (List.mem_cons_self ..) second _ _ same
                  obtain ⟨alike, behind⟩ := induction further behind
                  exact ⟨alike_cons_tree here alike, behind⟩

/-- Written trees that stand in front of something are the same only if the trees are of the same
structure, and then the same stands behind them. -/
theorem text_behind {tree other : Tree}
    (same : tree.text.toList ++ rest = other.text.toList ++ rest') :
    tree.Alike other ∧ rest = rest' := by
  induction tree generalizing other rest rest' with
  | node production pieces place inside =>
      obtain ⟨otherProduction, others, otherPlace⟩ := other
      simp only [text_node, List.cons_append, List.append_assoc, List.nil_append, List.cons.injEq,
        true_and] at same
      have names := congrArg (List.takeWhile fun char => char != ' ' && char != ')') same
      rw [take_name, take_name] at names
      obtain rfl := Production.eq_of_name (String.toList_inj.mp names)
      obtain ⟨alike, behind⟩ := pieces_text_behind (fun tree member _ _ _ => inside tree member)
        (List.append_cancel_left same)
      exact ⟨alike_node alike, behind⟩

theorem text_unlocated (tree : Tree) : tree.unlocated.text = tree.text := by
  apply String.toList_inj.mp
  induction tree with
  | node production pieces place inside =>
      rw [unlocated_node, text_node, text_node]
      congr 3
      induction pieces with
      | nil => rfl
      | cons piece pieces induction =>
          have further := induction fun tree member => inside tree (List.mem_cons_of_mem _ member)
          cases piece with
          | token text => simp only [List.map_cons, Piece.map, piecesText, further]
          | tree tree =>
              have here := inside tree (List.mem_cons_self ..)
              simp only [List.map_cons, Piece.map, piecesText, further, here]

/-- Two trees of whatever shape have the same written form exactly if they have the same
structure. -/
theorem text_eq_text_iff (tree other : Tree) :
    tree.text = other.text ↔ tree.sameStructure other = true := by
  rw [same_structure_iff]
  constructor
  · intro same
    have written : tree.text.toList ++ [] = other.text.toList ++ [] := by rw [same]
    exact (text_behind written).1
  · intro alike
    rw [← text_unlocated tree, alike, text_unlocated]

end Tree

end Reckon
