import Reckon.Evaluation.Tree
import Reckon.Proofs.Tree.Shape

/-!
The parts of calls: where a tree has calls, and what the groups of an argument list and the pieces
of a call must have been once arguments are found among them. No shape is taken for granted.
-/

namespace Reckon

namespace Piece

variable {α : Type}

theorem eq_token_of_is_token {piece : Piece α} {text : String}
    (same : piece.isToken text = true) : piece = .token text := by
  cases piece with
  | tree inner => cases same
  | token other =>
      have texts : some other = some text := beq_iff_eq.mp same
      rw [Option.some.inj texts]

/-- What is left of a list of groups behind a comma, if one comes first. -/
def afterComma : List (Piece α) → List (Piece α)
  | [] => []
  | piece :: rest => if piece.isToken "," then rest else piece :: rest

theorem after_comma_length (pieces : List (Piece α)) :
    (afterComma pieces).length ≤ pieces.length := by
  cases pieces with
  | nil => exact Nat.le_refl _
  | cons piece rest =>
      rw [afterComma]
      split
      · exact Nat.le_succ _
      · exact Nat.le_refl _

theorem mem_after_comma {tree : α} {pieces : List (Piece α)}
    (member : .tree tree ∈ pieces) : .tree tree ∈ afterComma pieces := by
  cases pieces with
  | nil => cases member
  | cons piece rest =>
      rw [afterComma]
      split
      · next comma =>
          rw [Piece.eq_token_of_is_token comma] at member
          rcases List.mem_cons.mp member with same | later
          · cases same
          · exact later
      · exact member

/-- What holds of no pieces and of too few for a group, and of a group followed by pieces, once it
holds of those behind the comma, holds of all pieces. -/
theorem induct_groups {motive : List (Piece α) → Prop} (nil : motive [])
    (one : ∀ name, motive [name]) (two : ∀ name mark, motive [name, mark])
    (group : ∀ name mark value rest, motive (afterComma rest) →
      motive (name :: mark :: value :: rest)) (pieces : List (Piece α)) : motive pieces :=
  match pieces with
  | [] => nil
  | [name] => one name
  | [name, mark] => two name mark
  | name :: mark :: value :: rest =>
      group name mark value rest (induct_groups nil one two group (afterComma rest))
termination_by pieces.length
decreasing_by
  have shorter := after_comma_length rest
  simp only [List.length_cons]
  omega

end Piece

namespace Tree

/-- The tree, or one inside it, is a call of the name at the place. -/
def CallsAt (tree : Tree) (name : String) (place : Location) : Prop :=
  ∃ callee rest, (node .call (.tree callee :: rest) place).PartOf tree ∧ callee.name? = some name

/-- The tree is an identifier of the name, or an atom in it consists of one. Other identifiers, such
as those of arguments, are not read. -/
def Reads (tree : Tree) (name : String) : Prop :=
  tree.name? = some name ∨ ∃ identifier place,
    (node .atom [.tree identifier] place).PartOf tree ∧ identifier.name? = some name

/-- The tree reads the name or calls it. -/
def Mentions (tree : Tree) (name : String) : Prop :=
  tree.Reads name ∨ ∃ place, tree.CallsAt name place

theorem production_of_name {tree : Tree} {name : String} (named : tree.name? = some name) :
    tree.production = .identifier := by
  unfold name? at named
  split at named
  · next same => exact same
  · cases named

theorem leaf_of_name {tree : Tree} {name : String} (named : tree.name? = some name) :
    tree.leafText?.isSome = true := by
  unfold name? at named
  split at named
  · exact Option.isSome_iff_exists.mpr ⟨name, named⟩
  · cases named

theorem no_calls_in_leaf {tree : Tree} {name : String} {place : Location}
    (leaf : tree.leafText?.isSome = true) : ¬tree.CallsAt name place := by
  rintro ⟨callee, rest, part, _⟩
  obtain ⟨production, pieces, location⟩ := tree
  unfold leafText? at leaf
  split at leaf
  · next same =>
      cases same
      cases part with
      | inside member _ => cases List.mem_singleton.mp member
  · cases leaf

/-- A call of the name without arguments. -/
def bareCall (name : String) (place : Location) : Tree :=
  .node .call [.tree (.leaf .identifier name place), .token "(", .tree (.node .arguments [] place),
    .token ")"] place

/-- The pieces of the argument list among the pieces of a call. -/
def argumentPieces : List (Piece Tree) → List (Piece Tree)
  | [_, _, .tree (.node .arguments pieces _), _] => pieces
  | _ => []

theorem argument_pieces_inside {pieces : List (Piece Tree)} {inner : Tree}
    (member : .tree inner ∈ argumentPieces pieces) :
    ∃ list, .tree list ∈ pieces ∧ .tree inner ∈ list.pieces := by
  unfold argumentPieces at member
  split at member
  · next callee opening given place closing =>
      exact ⟨.node .arguments given place, by simp, member⟩
  · cases member

end Tree

namespace Argument

/-- The values of the arguments, the first evaluated first. -/
def values : List Argument → Evaluation (List Value)
  | [] => pure []
  | argument :: rest => do
      let value ← argument.value.value
      let others ← values rest
      return value :: others

/-- The values go with the arguments they are the values of. -/
theorem evaluate_all_eq (arguments : List Argument) :
    evaluateAll arguments = arguments.zip <$> values arguments := by
  induction arguments with
  | nil => rfl
  | cons argument rest induction =>
      rw [evaluateAll, values, induction]
      simp only [map_eq_pure_bind, bind_assoc, pure_bind, List.zip_cons_cons]

theorem of_pieces_group (place : Location) (name mark value : Piece Operand)
    (rest : List (Piece Operand)) :
    ofPieces place (name :: mark :: value :: rest) =
      match name? name, expr? value with
      | some name, some value =>
          if mark.isToken "=" then
            (ofPieces place (Piece.afterComma rest)).map (⟨name, value⟩ :: ·)
          else .error (.malformed .arguments "`=` after the argument name" place)
      | _, _ => .error (.malformed .arguments "`name = expr` pairs" place) := by
  cases rest with
  | nil => exact ofPieces.eq_3 place name mark value
  | cons comma rest =>
      have parted : ofPieces place (Piece.afterComma (comma :: rest)) =
          if comma.isToken "," then ofPieces place rest else ofPieces place (comma :: rest) := by
        rw [Piece.afterComma, apply_ite (ofPieces place)]
      rw [parted]
      exact ofPieces.eq_2 place name mark value comma rest

end Argument

namespace Evaluation

theorem operand_of_filter {piece : Piece Operand} {production : Production} {operand : Operand}
    (found : piece.tree?.filter (·.tree.production == production) = some operand) :
    piece = .tree operand ∧ operand.tree.production = production := by
  obtain ⟨same, fits⟩ := Option.filter_eq_some_iff.mp found
  cases piece with
  | token text => cases same
  | tree inner =>
      cases same
      exact ⟨rfl, beq_iff_eq.mp fits⟩

theorem map_eq_ok {α β : Type} {outcome : Except Fault α} {function : α → β} {result : β}
    (same : outcome.map function = .ok result) :
    ∃ inner, outcome = .ok inner ∧ function inner = result := by
  cases outcome with
  | error fault => cases same
  | ok inner =>
      cases same
      exact ⟨inner, rfl, rfl⟩

/-- Where a group comes first and arguments are found, it is one of a name, a sign and an
expression. -/
theorem of_pieces_ok {place : Location} {name mark value : Piece Operand}
    {rest : List (Piece Operand)} {arguments : List Argument}
    (found : Argument.ofPieces place (name :: mark :: value :: rest) = .ok arguments) :
    ∃ text operand tail, Argument.name? name = some text ∧ value = .tree operand ∧
      operand.tree.production = .expr ∧ mark = .token "=" ∧
      Argument.ofPieces place (Piece.afterComma rest) = .ok tail ∧
      ⟨text, operand⟩ :: tail = arguments := by
  rw [Argument.of_pieces_group] at found
  split at found
  · next text operand named valued =>
      split at found
      · next marked =>
          obtain ⟨tail, parsed, same⟩ := map_eq_ok found
          obtain ⟨isTree, fits⟩ := operand_of_filter valued
          exact ⟨text, operand, tail, named, isTree, fits, Piece.eq_token_of_is_token marked,
            parsed, same⟩
      · cases found
  · cases found

theorem of_call_parts {pieces given : List (Piece Operand)} {place : Location} {name : String}
    {arguments : List Argument} (found : callParts place given pieces = .ok (name, arguments)) :
    ∃ callee list, pieces = [callee, .token "(", .tree list, .token ")"] ∧
      Argument.name? callee = some name ∧ list.tree.production = .arguments ∧
      Argument.ofPieces list.tree.location given = .ok arguments := by
  unfold callParts at found
  split at found
  · next callee opening list closing =>
      split at found
      · next text operand named listed =>
          split at found
          · next enclosed =>
              rw [Bool.and_eq_true] at enclosed
              have opened := Piece.eq_token_of_is_token enclosed.1
              have closed := Piece.eq_token_of_is_token enclosed.2
              obtain ⟨rfl, fits⟩ := operand_of_filter listed
              subst opened closed
              obtain ⟨_, parsed, same⟩ := map_eq_ok found
              cases same
              exact ⟨callee, operand, rfl, named, fits, parsed⟩
          · cases found
      · cases found
  · cases found

end Evaluation

end Reckon
