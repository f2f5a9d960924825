import Reckon.Proofs.Tree.Shape
import Reckon.Tree.Same

/-!
Trees without their locations. Two trees have the same structure exactly if they are equal once
every location has been forgotten, so that sameness of structure can be reasoned about by
rewriting.
-/

namespace Reckon

namespace Tree

mutual

/-- The tree with every location forgotten. -/
def unlocated : Tree → Tree
  | .node production pieces _ => .node production (unlocatedPieces pieces) .unknown
termination_by structural tree => tree

def unlocatedPieces : List (Piece Tree) → List (Piece Tree)
  | [] => []
  | .token text :: rest => .token text :: unlocatedPieces rest
  | .tree tree :: rest => .tree (unlocated tree) :: unlocatedPieces rest
termination_by structural pieces => pieces

end

theorem unlocated_pieces_eq_map (pieces : List (Piece Tree)) :
    unlocatedPieces pieces = pieces.map (Piece.map unlocated) := by
  induction pieces with
  | nil => rfl
  | cons piece pieces induction =>
      cases piece <;> simp only [unlocatedPieces, List.map_cons, Piece.map, induction]

@[simp] theorem unlocated_node (production : Production) (pieces : List (Piece Tree))
    (location : Location) : (Tree.node production pieces location).unlocated =
      .node production (pieces.map (Piece.map unlocated)) .unknown := by
  rw [unlocated, unlocated_pieces_eq_map]

@[simp] theorem unlocated_production (tree : Tree) :
    tree.unlocated.production = tree.production := by
  cases tree
  rw [unlocated_node]
  rfl

theorem pieces_agree_iff {pieces : List (Piece Tree)} (pieces' : List (Piece Tree))
    (inside : ∀ tree, .tree tree ∈ pieces → ∀ tree' : Tree,
      tree.sameStructure tree' = true ↔ tree.unlocated = tree'.unlocated) :
    piecesAgree (fun _ _ => true) pieces pieces' = true ↔
      pieces.map (Piece.map unlocated) = pieces'.map (Piece.map unlocated) := by
  induction pieces generalizing pieces' with
  | nil => cases pieces' <;> simp [piecesAgree]
  | cons piece pieces induction =>
      have rest := fun others => induction others fun tree member => inside tree (by simp [member])
      cases pieces' with
      | nil => cases piece <;> simp [piecesAgree]
      | cons piece' pieces' =>
          match piece, piece' with
          | .token _, .token _ => simp [piecesAgree, Piece.map, rest]
          | .token _, .tree _ => simp [piecesAgree, Piece.map]
          | .tree _, .token _ => simp [piecesAgree, Piece.map]
          | .tree tree, .tree tree' =>
              have same := inside tree (by simp) tree'
              simp only [sameStructure] at same
              simp [piecesAgree, Piece.map, rest, same, and_comm]

theorem same_structure_iff (tree tree' : Tree) :
    tree.sameStructure tree' = true ↔ tree.unlocated = tree'.unlocated := by
  induction tree generalizing tree' with
  | node production pieces location inside =>
      cases tree' with
      | node production' pieces' location' =>
          simp only [sameStructure, agrees, Bool.and_true, Bool.and_eq_true, beq_iff_eq,
            pieces_agree_iff pieces' inside, unlocated_node, Tree.node.injEq, and_true]

/-- The two trees have the same structure. -/
def Alike (tree other : Tree) : Prop := tree.unlocated = other.unlocated

/-- The pieces are the same tokens and trees of the same structure. -/
def AlikePieces (pieces others : List (Piece Tree)) : Prop :=
  pieces.map (Piece.map unlocated) = others.map (Piece.map unlocated)

theorem alike_node {production : Production} {pieces others : List (Piece Tree)}
    {location other : Location} (alike : AlikePieces pieces others) :
    Alike (.node production pieces location) (.node production others other) := by
  rw [Alike, unlocated_node, unlocated_node, alike]

theorem alike_cons_token {text : String} {pieces others : List (Piece Tree)}
    (alike : AlikePieces pieces others) :
    AlikePieces (.token text :: pieces) (.token text :: others) := by
  rw [AlikePieces, List.map_cons, List.map_cons, alike]

theorem alike_cons_tree {tree other : Tree} {pieces others : List (Piece Tree)}
    (same : tree.Alike other) (alike : AlikePieces pieces others) :
    AlikePieces (.tree tree :: pieces) (.tree other :: others) := by
  rw [AlikePieces, List.map_cons, List.map_cons, alike, Piece.map, Piece.map, same]

theorem of_alike_node {tree : Tree} {production : Production} {pieces : List (Piece Tree)}
    {location : Location} (alike : tree.Alike (.node production pieces location)) :
    ∃ others place, tree = .node production others place ∧ AlikePieces others pieces := by
  obtain ⟨treeProduction, others, place⟩ := tree
  rw [Alike, unlocated_node, unlocated_node] at alike
  injection alike with same alike
  subst same
  exact ⟨others, place, rfl, alike⟩

theorem of_alike_nil {pieces : List (Piece Tree)} (alike : AlikePieces pieces []) : pieces = [] :=
  List.map_eq_nil_iff.mp alike

theorem of_alike_cons_token {text : String} {pieces rest : List (Piece Tree)}
    (alike : AlikePieces pieces (.token text :: rest)) :
    ∃ others, pieces = .token text :: others ∧ AlikePieces others rest := by
  obtain ⟨piece, others, rfl, same, behind⟩ := List.map_eq_cons_iff.mp alike
  cases piece with
  | token found =>
      cases same
      exact ⟨others, rfl, behind⟩
  | tree found => cases same

theorem of_alike_cons_tree {tree : Tree} {pieces rest : List (Piece Tree)}
    (alike : AlikePieces pieces (.tree tree :: rest)) :
    ∃ other others, pieces = .tree other :: others ∧ other.Alike tree ∧
      AlikePieces others rest := by
  obtain ⟨piece, others, rfl, same, behind⟩ := List.map_eq_cons_iff.mp alike
  cases piece with
  | token found => cases same
  | tree found =>
      injection same with same
      exact ⟨found, others, rfl, same, behind⟩

theorem of_alike_append {pieces first second : List (Piece Tree)}
    (alike : AlikePieces pieces (first ++ second)) :
    ∃ front back, pieces = front ++ back ∧ AlikePieces front first ∧ AlikePieces back second := by
  rw [AlikePieces, List.map_append] at alike
  obtain ⟨front, back, rfl, before, after⟩ := List.map_eq_append_iff.mp alike
  exact ⟨front, back, rfl, before, after⟩

theorem of_alike_leaf {tree : Tree} {production : Production} {text : String}
    {location : Location} (alike : tree.Alike (.leaf production text location)) :
    ∃ place, tree = .leaf production text place := by
  obtain ⟨pieces, place, rfl, inside⟩ := of_alike_node alike
  obtain ⟨rest, rfl, behind⟩ := of_alike_cons_token inside
  rw [of_alike_nil behind]
  exact ⟨place, rfl⟩

theorem alike_production {tree other : Tree} (alike : tree.Alike other) :
    tree.production = other.production := by
  rw [← unlocated_production tree, alike, unlocated_production]

theorem chained_of_alike {operand : Production} {signs : List String}
    {pieces others : List (Piece Tree)} (alike : AlikePieces others pieces)
    (chained : Shape.Chained production operand signs pieces) :
    Shape.Chained production operand signs others := by
  induction chained generalizing others with
  | last fits =>
      obtain ⟨tree, rest, rfl, same, behind⟩ := of_alike_cons_tree alike
      rw [of_alike_nil behind]
      exact .last (by rw [alike_production same, fits])
  | next fits allowed _ induction =>
      obtain ⟨tree, rest, rfl, same, behind⟩ := of_alike_cons_tree alike
      obtain ⟨rest, rfl, after⟩ := of_alike_cons_token behind
      exact .next (by rw [alike_production same, fits]) allowed (induction after)

end Tree

end Reckon
