import Reckon.Proofs.Evaluation.Faults

/-!
The parts of statements that follow the table. They are all found, and what can still be wrong with
them are names of kinds and of parameters.
-/

namespace Reckon

namespace Statement

variable {literals : String → Location → Prop} {construct : Production} {location : Location}

theorem name_of_leaf {expected text : String} {place : Location} :
    nameOf construct location expected (.tree (.leaf .identifier text place)) = .ok text := rfl

theorem expression_of_fitting {tree : Tree} (fits : tree.production = .expr) :
    expressionOf construct location (.tree tree) = .ok tree := by
  rw [expressionOf, Piece.tree?, Option.filter_some, if_pos]
  exact beq_iff_eq.mpr fits

theorem kind_of_leaf {text : String} {place : Location} :
    EndsPure (kindOf construct location (.tree (.leaf .identifier text place)))
      (fun kind => Kind.ofName? text = some kind) (Fault.IsProper literals) := by
  rw [kindOf, name_of_leaf]
  cases found : Kind.ofName? text with
  | some kind =>
      simp only [bind, Except.bind, found]
      exact .ok rfl
  | none =>
      simp only [bind, Except.bind, found]
      exact .error (Fault.proper_of_ordinary trivial)

/-- A definition that follows the table has a name, a value and a kind or none. -/
theorem definition_ends {pieces : List (Piece Tree)}
    (allowed : Shape.Allows Tree.production .varDefine pieces)
    (shaped : ∀ tree, .tree tree ∈ pieces → tree.FollowsTable) :
    EndsPure (Definition.ofPieces location pieces)
      (fun definition => .tree definition.value ∈ pieces ∧ definition.value.production = .expr)
      (Fault.IsProper literals) := by
  cases allowed with
  | @define name value named valued =>
      obtain ⟨text, place, rfl, _⟩ := Tree.text_of_name (shaped name (by simp)) named
      change EndsPure (do
        let value ← expressionOf .varDefine location (.tree value)
        return (⟨text, none, value⟩ : Definition)) _ _
      rw [expression_of_fitting valued]
      exact .ok ⟨by simp, valued⟩
  | @defineAs name kind value named declared valued =>
      obtain ⟨text, place, rfl, _⟩ := Tree.text_of_name (shaped name (by simp)) named
      obtain ⟨kindText, kindPlace, rfl, _⟩ := Tree.text_of_name (shaped kind (by simp)) declared
      change EndsPure (do
        let declared ← kindOf .varDefine location (.tree (.leaf .identifier kindText kindPlace))
        let value ← expressionOf .varDefine location (.tree value)
        return (⟨text, some declared, value⟩ : Definition)) _ _
      refine kind_of_leaf.bind fun kind _ => ?_
      rw [expression_of_fitting valued]
      exact .ok ⟨by simp, valued⟩

theorem assignment_ends {pieces : List (Piece Tree)}
    (allowed : Shape.Allows Tree.production .varAssign pieces)
    (shaped : ∀ tree, .tree tree ∈ pieces → tree.FollowsTable) :
    EndsPure (Assignment.ofPieces location pieces)
      (fun assignment => .tree assignment.value ∈ pieces ∧ assignment.value.production = .expr)
      (Fault.IsProper literals) := by
  cases allowed with
  | @assign name value named valued =>
      obtain ⟨text, place, rfl, _⟩ := Tree.text_of_name (shaped name (by simp)) named
      change EndsPure (do
        let value ← expressionOf .varAssign location (.tree value)
        return (⟨text, value⟩ : Assignment)) _ _
      rw [expression_of_fitting valued]
      exact .ok ⟨by simp, valued⟩

theorem echoed_ends {pieces : List (Piece Tree)}
    (allowed : Shape.Allows Tree.production .echo pieces) :
    EndsPure (echoed location pieces)
      (fun value => .tree value ∈ pieces ∧ value.production = .expr)
      (Fault.IsProper literals) := by
  cases allowed with
  | @echo value valued =>
      change EndsPure (expressionOf .echo location (.tree value)) _ _
      rw [expression_of_fitting valued]
      exact .ok ⟨by simp, valued⟩

theorem parameters_end {pieces : List (Piece Tree)}
    (listed : Shape.Listed Tree.production ":" .identifier pieces)
    (shaped : ∀ tree, .tree tree ∈ pieces → tree.FollowsTable) (callable : String)
    (seen : List String) :
    EndsPure (parameters callable location seen pieces) (fun _ => True)
      (Fault.IsProper literals) := by
  induction listed generalizing seen with
  | none => exact .ok trivial
  | @last name kind named declared =>
      obtain ⟨text, place, rfl, _⟩ := Tree.text_of_name (shaped name (by simp)) named
      obtain ⟨kindText, kindPlace, rfl, _⟩ := Tree.text_of_name (shaped kind (by simp)) declared
      change EndsPure (do
        let declared ← kindOf .parameters location (.tree (.leaf .identifier kindText kindPlace))
        if text ∈ seen then
          .error ((Fault.of (.duplicateParameter callable text)).locate place)
        else return [(⟨text, declared⟩ : Parameter)]) _ _
      refine kind_of_leaf.bind fun kind _ => ?_
      split
      · exact .error (Fault.proper_of_ordinary trivial)
      · exact .ok trivial
  | @next name kind rest named declared others induction =>
      obtain ⟨text, place, rfl, _⟩ := Tree.text_of_name (shaped name (by simp)) named
      obtain ⟨kindText, kindPlace, rfl, _⟩ := Tree.text_of_name (shaped kind (by simp)) declared
      change EndsPure (do
        let declared ← kindOf .parameters location (.tree (.leaf .identifier kindText kindPlace))
        if text ∈ seen then
          .error ((Fault.of (.duplicateParameter callable text)).locate place)
        else do
          let others ← parameters callable location (text :: seen) rest
          return (⟨text, declared⟩ : Parameter) :: others) _ _
      refine kind_of_leaf.bind fun kind _ => ?_
      split
      · exact .error (Fault.proper_of_ordinary trivial)
      · refine (induction (fun tree member => shaped tree (by simp [member])) _).bind fun _ _ => ?_
        exact .ok trivial

theorem signature_ends {pieces : List (Piece Tree)}
    (allowed : Shape.Allows Tree.production .signature pieces)
    (shaped : ∀ tree, .tree tree ∈ pieces → tree.Everywhere Tree.FollowsTable)
    (callable : String) :
    EndsPure (signature callable location pieces) (fun _ => True) (Fault.IsProper literals) := by
  cases allowed with
  | @signature kind list declared listed =>
      obtain ⟨kindText, kindPlace, rfl, _⟩ :=
        Tree.text_of_name (shaped kind (by simp) _ .whole) declared
      have listShaped := shaped list (by simp)
      obtain ⟨_, groups, listPlace⟩ := list
      cases listed
      obtain ⟨listAllowed, inside⟩ := Tree.everywhere_node.mp listShaped
      cases listAllowed with
      | parameters listed =>
          change EndsPure (do
            let returned ← kindOf .signature location (.tree (.leaf .identifier kindText kindPlace))
            let parameters ← parameters callable listPlace [] groups
            return (returned, parameters)) _ _
          refine kind_of_leaf.bind fun kind _ => ?_
          refine (parameters_end listed (fun tree member => inside tree member tree .whole)
            callable []).bind fun _ _ => ?_
          exact .ok trivial

/-- A definition of a callable that follows the table gives one whose body is among its pieces. -/
theorem callable_ends {pieces : List (Piece Tree)}
    (allowed : Shape.Allows Tree.production .callableDefine pieces)
    (shaped : ∀ tree, .tree tree ∈ pieces → tree.Everywhere Tree.FollowsTable) :
    EndsPure (callable location pieces)
      (fun callable => .tree callable.body ∈ pieces ∧ callable.body.production = .expr)
      (Fault.IsProper literals) := by
  cases allowed with
  | @defineCallable name signed body named signature_ valued =>
      obtain ⟨text, place, rfl, _⟩ := Tree.text_of_name (shaped name (by simp) _ .whole) named
      have signedShaped := shaped signed (by simp)
      obtain ⟨_, groups, signedPlace⟩ := signed
      cases signature_
      obtain ⟨signedAllowed, inside⟩ := Tree.everywhere_node.mp signedShaped
      have fits : (Piece.tree body).tree?.filter (·.production == .expr) = some body := by
        rw [Piece.tree?, Option.filter_some, if_pos]
        exact beq_iff_eq.mpr valued
      have whole : callable location [.tree (.leaf .identifier text place), .token ":",
            .tree (.node .signature groups signedPlace), .token "=", .tree body] = (do
          let found ← signature text signedPlace groups
          return ⟨text, found.1, found.2, body, location.position⟩) := by
        rw [callable, name_of_leaf]
        simp only [fits]
        rfl
      rw [whole]
      refine (signature_ends signedAllowed inside text).bind fun found _ => ?_
      exact .ok ⟨by simp, valued⟩

end Statement

end Reckon
