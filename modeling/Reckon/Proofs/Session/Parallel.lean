import Reckon.Proofs.Evaluation.Parallel
import Reckon.Proofs.Scope.Bindings
import Reckon.Session

/-!
Two sessions side by side. A statement looks at its tree as an expression does, and takes from the
session what names stand for, what an expression comes to, and the output to write to. So sessions
that are related in these go on related and end alike, whatever the relation is, as long as every
change that a statement makes on both sides keeps it.
-/

namespace Reckon

namespace Statement

/-- Definitions of the same name and kind, with values beside each other. -/
structure Definition.Beside (places : Location → Location → Prop)
    (definition other : Definition) : Prop where
  name : definition.name = other.name
  kind : definition.kind? = other.kind?
  value : definition.value.Beside places other.value

/-- Assignments to the same name, with values beside each other. -/
structure Assignment.Beside (places : Location → Location → Prop)
    (assignment other : Assignment) : Prop where
  name : assignment.name = other.name
  value : assignment.value.Beside places other.value

end Statement

/-- Callables of the same name and signature, with bodies beside each other. -/
structure Callable.Beside (places : Location → Location → Prop) (callable other : Callable) :
    Prop where
  signature : callable.SameSignature other
  position : ∃ place other', places place other' ∧ callable.position = place.position ∧
    other.position = other'.position
  body : callable.body.Beside places other.body

theorem Callable.beside_imp {places further : Location → Location → Prop}
    {callable other : Callable}
    (implied : ∀ here there, places here there → further here there)
    (beside : callable.Beside places other) : callable.Beside further other := by
  obtain ⟨signature, ⟨place, there, related, positions⟩, body⟩ := beside
  exact ⟨signature, ⟨place, there, implied _ _ related, positions⟩, Tree.beside_imp implied body⟩

theorem Callable.eq_of_beside {callable other : Callable}
    (beside : callable.Beside (· = ·) other) : callable = other := by
  obtain ⟨⟨name, returns, parameters⟩, ⟨place, _, rfl, here, there⟩, body⟩ := beside
  have bodies := Tree.eq_of_beside body
  cases callable
  cases other
  simp_all

namespace Statement

variable {places : Location → Location → Prop} {place other : Location} {construct : Production}

section

variable {piece piece' : Piece Tree}

theorem name_of_beside {expected : String} (here : places place other)
    (beside : Piece.Beside (Tree.Beside places) piece piece') :
    AlikeOutcomes (· = ·) places (nameOf construct place expected piece)
      (nameOf construct other expected piece') := by
  have named : piece.tree?.bind Tree.name? = piece'.tree?.bind Tree.name? := by
    cases beside with
    | token text => rfl
    | tree trees => exact Tree.name_of_beside trees
  rw [nameOf, nameOf, named]
  cases piece'.tree?.bind Tree.name? with
  | none => exact malformed_beside here
  | some name => exact .ok rfl

/-- Where a piece is, or the tree around it if the piece is no tree. -/
theorem place_of_piece_beside (here : places place other)
    (beside : Piece.Beside (Tree.Beside places) piece piece') :
    places ((piece.tree?.map (·.location)).getD place)
      ((piece'.tree?.map (·.location)).getD other) := by
  cases beside with
  | token text => exact here
  | tree trees => exact Tree.place_of_beside trees

theorem filtered_beside (production : Production)
    (beside : Piece.Beside (Tree.Beside places) piece piece') :
    (piece.tree?.filter (·.production == production) = none ∧
      piece'.tree?.filter (·.production == production) = none) ∨
    ∃ left right, piece.tree?.filter (·.production == production) = some left ∧
      piece'.tree?.filter (·.production == production) = some right ∧ left.Beside places right :=
  Piece.filtered_of_beside beside _ fun _ _ trees => by rw [Tree.production_of_beside trees]

theorem expression_of_beside (here : places place other)
    (beside : Piece.Beside (Tree.Beside places) piece piece') :
    AlikeOutcomes (Tree.Beside places) places (expressionOf construct place piece)
      (expressionOf construct other piece') := by
  rw [expressionOf, expressionOf]
  rcases filtered_beside .expr beside with ⟨left, right⟩ | ⟨_, _, left, right, trees⟩
  · rw [left, right]
    exact malformed_beside here
  · rw [left, right]
    exact .ok trees

theorem kind_of_beside (here : places place other)
    (beside : Piece.Beside (Tree.Beside places) piece piece') :
    AlikeOutcomes (· = ·) places (kindOf construct place piece)
      (kindOf construct other piece') := by
  apply (name_of_beside here beside).bind
  rintro name _ rfl
  cases Kind.ofName? name with
  | some kind => exact .ok rfl
  | none =>
      have bare : (Fault.unknownType name).IsBare :=
        Fault.bare_with_note (Fault.bare_of_cause (by simp)) (by simp)
      exact .error (.located bare (place_of_piece_beside here beside))

end

section

variable {pieces others : List (Piece Tree)}

theorem definition_beside (here : places place other)
    (beside : List.Forall₂ (Piece.Beside (Tree.Beside places)) pieces others) :
    AlikeOutcomes (Definition.Beside places) places (Definition.ofPieces place pieces)
      (Definition.ofPieces other others) := by
  rcases beside with
    _ | ⟨target, _ | ⟨colon, _ | ⟨third, _ | ⟨fourth, _ | ⟨fifth, _ | ⟨further, rest⟩⟩⟩⟩⟩⟩
  · exact malformed_beside here
  · exact malformed_beside here
  · exact malformed_beside here
  · exact malformed_beside here
  · simp only [Definition.ofPieces, Piece.is_token_of_beside colon, Piece.is_token_of_beside third]
    split
    · apply (name_of_beside here target).bind
      rintro target _ rfl
      apply (expression_of_beside here fourth).bind
      intro value value' values
      exact .ok ⟨rfl, rfl, values⟩
    · exact malformed_beside here
  · simp only [Definition.ofPieces, Piece.is_token_of_beside colon, Piece.is_token_of_beside fourth]
    split
    · apply (name_of_beside here target).bind
      rintro target _ rfl
      apply (kind_of_beside here third).bind
      rintro declared _ rfl
      apply (expression_of_beside here fifth).bind
      intro value value' values
      exact .ok ⟨rfl, rfl, values⟩
    · exact malformed_beside here
  · exact malformed_beside here

theorem assignment_beside (here : places place other)
    (beside : List.Forall₂ (Piece.Beside (Tree.Beside places)) pieces others) :
    AlikeOutcomes (Assignment.Beside places) places (Assignment.ofPieces place pieces)
      (Assignment.ofPieces other others) := by
  rcases beside with _ | ⟨target, _ | ⟨equals, _ | ⟨value, _ | ⟨further, rest⟩⟩⟩⟩
  · exact malformed_beside here
  · exact malformed_beside here
  · exact malformed_beside here
  · simp only [Assignment.ofPieces, Piece.is_token_of_beside equals]
    split
    · apply (name_of_beside here target).bind
      rintro target _ rfl
      apply (expression_of_beside here value).bind
      intro value value' values
      exact .ok ⟨rfl, values⟩
    · exact malformed_beside here
  · exact malformed_beside here

theorem echoed_beside (here : places place other)
    (beside : List.Forall₂ (Piece.Beside (Tree.Beside places)) pieces others) :
    AlikeOutcomes (Tree.Beside places) places (echoed place pieces) (echoed other others) := by
  rcases beside with _ | ⟨keyword, _ | ⟨value, _ | ⟨further, rest⟩⟩⟩
  · exact malformed_beside here
  · exact malformed_beside here
  · simp only [echoed, Piece.is_token_of_beside keyword]
    split
    · exact expression_of_beside here value
    · exact malformed_beside here
  · exact malformed_beside here

/-- A group is read with the groups behind it, once a comma between them is left out. -/
theorem parameters_group (callable : String) (place : Location) (seen : List String)
    (target colon declared : Piece Tree) (rest : List (Piece Tree)) :
    parameters callable place seen (target :: colon :: declared :: rest) =
      if colon.isToken ":" then do
        let name ← nameOf .parameters place "a parameter name" target
        let declared ← kindOf .parameters place declared
        if name ∈ seen then
          .error ((Fault.of (.duplicateParameter callable name)).locate
            ((target.tree?.map (·.location)).getD place))
        else do
          let others ← parameters callable place (name :: seen) (Piece.afterComma rest)
          return ⟨name, declared⟩ :: others
      else .error (.malformed .parameters "`:` after the parameter name" place) := by
  rw [parameters]
  cases rest with
  | nil => rfl
  | cons comma more =>
      simp only [Piece.afterComma]
      by_cases separated : comma.isToken "," = true
      · simp only [separated, if_true]
      · simp only [separated]
        rfl

theorem parameters_beside (callable : String) (seen : List String) (here : places place other)
    (beside : List.Forall₂ (Piece.Beside (Tree.Beside places)) pieces others) :
    AlikeOutcomes (· = ·) places (parameters callable place seen pieces)
      (parameters callable other seen others) := by
  induction pieces using Piece.induct_groups generalizing others seen with
  | nil =>
      cases beside
      exact .ok rfl
  | one target =>
      match others, beside with
      | _, .cons _ .nil => exact malformed_beside here
  | two target colon =>
      match others, beside with
      | _, .cons _ (.cons _ .nil) => exact malformed_beside here
  | group target colon declared rest induction =>
      match others, beside with
      | _, .cons targets (.cons colons (.cons kinds rests)) =>
          rw [parameters_group, parameters_group, Piece.is_token_of_beside colons]
          split
          · apply (name_of_beside here targets).bind
            rintro name _ rfl
            apply (kind_of_beside here kinds).bind
            rintro kind _ rfl
            split
            · exact .error (.located (Fault.bare_of_cause (by simp))
                (place_of_piece_beside here targets))
            · apply (induction (name :: seen) (Piece.after_comma_beside rests)).bind
              rintro found _ rfl
              exact .ok rfl
          · exact malformed_beside here

theorem signature_beside (callable : String) (here : places place other)
    (beside : List.Forall₂ (Piece.Beside (Tree.Beside places)) pieces others) :
    AlikeOutcomes (· = ·) places (signature callable place pieces)
      (signature callable other others) := by
  rcases beside with
    _ | ⟨returned, _ | ⟨opening, _ | ⟨list, _ | ⟨closing, _ | ⟨further, rest⟩⟩⟩⟩⟩
  · exact malformed_beside here
  · exact malformed_beside here
  · exact malformed_beside here
  · exact malformed_beside here
  · simp only [signature, Piece.is_token_of_beside opening, Piece.is_token_of_beside closing]
    split
    · apply (kind_of_beside here returned).bind
      rintro returned _ rfl
      rcases filtered_beside .parameters list with ⟨left, right⟩ | ⟨_, _, left, right, lists⟩
      · rw [left, right]
        exact malformed_beside here
      · rw [left, right]
        apply (parameters_beside callable [] (Tree.place_of_beside lists)
          (Tree.pieces_of_beside lists)).bind
        rintro parameters _ rfl
        exact .ok rfl
    · exact malformed_beside here
  · exact malformed_beside here

theorem callable_beside (here : places place other)
    (beside : List.Forall₂ (Piece.Beside (Tree.Beside places)) pieces others) :
    AlikeOutcomes (Callable.Beside places) places (callable place pieces)
      (callable other others) := by
  rcases beside with
    _ | ⟨target, _ | ⟨colon, _ | ⟨signed, _ | ⟨equals, _ | ⟨body, _ | ⟨further, rest⟩⟩⟩⟩⟩⟩
  · exact malformed_beside here
  · exact malformed_beside here
  · exact malformed_beside here
  · exact malformed_beside here
  · exact malformed_beside here
  · simp only [callable, Piece.is_token_of_beside colon, Piece.is_token_of_beside equals]
    split
    · apply (name_of_beside here target).bind
      rintro target _ rfl
      rcases filtered_beside .signature signed with ⟨left, right⟩ | ⟨_, _, left, right, signed⟩
      · rw [left, right]
        exact malformed_beside here
      · rw [left, right]
        apply (signature_beside target (Tree.place_of_beside signed)
          (Tree.pieces_of_beside signed)).bind
        rintro ⟨returned, parameters⟩ _ rfl
        rcases filtered_beside .expr body with ⟨left, right⟩ | ⟨_, _, left, right, bodies⟩
        · simp only [left, right]
          exact malformed_beside here
        · simp only [left, right]
          exact .ok ⟨⟨rfl, rfl, rfl⟩, ⟨place, other, here, rfl, rfl⟩, bodies⟩
    · exact malformed_beside here
  · exact malformed_beside here

end

end Statement

/-- What a relation between sessions has to be kept by for statements to go on alike: by
evaluations, and by each change that a statement makes to the scope or to the output. -/
structure SessionsParallel (places : Location → Location → Prop) (faults : Fault → Fault → Prop)
    (states : Session → Session → Prop) : Prop where
  raised : ∀ {fault other : Fault}, fault.RaisedBeside places other → faults fault other
  values : ∀ {session other}, states session other → ∀ name,
    session.scope.value? name = other.scope.value? name
  callables : ∀ {session other}, states session other → ∀ name,
    (session.scope.callable? name).isSome = (other.scope.callable? name).isSome
  evaluate : ∀ {tree other : Tree}, tree.Beside places other →
    ProgramsAlike faults states (· = ·) (Execution.evaluate tree) (Execution.evaluate other)
  defineVariable : ∀ {session other}, states session other → ∀ name value,
    states { session with scope := session.scope.defineVariable name value }
      { other with scope := other.scope.defineVariable name value }
  assign : ∀ {session other}, states session other → ∀ {name value scope scope'},
    session.scope.assign name value = .ok scope → other.scope.assign name value = .ok scope' →
    states { session with scope := scope } { other with scope := scope' }
  defineCallable : ∀ {session other}, states session other → ∀ {place pieces callable callable'},
    Statement.callable place pieces = .ok callable → callable.Beside places callable' →
    states { session with scope := session.scope.defineCallable callable }
      { other with scope := other.scope.defineCallable callable' }
  writeLine : ∀ {session other}, states session other → ∀ line,
    states { session with output := session.output.writeLine line }
      { other with output := other.output.writeLine line }

namespace Execution

variable {places : Location → Location → Prop} {faults : Fault → Fault → Prop}
  {states : Session → Session → Prop}

theorem told_alike {α β γ δ : Type} (parallel : SessionsParallel places faults states)
    {results : α → β → Prop} {others : γ → δ → Prop} {left : Except Fault α}
    {right : Except Fault β}
    {leftRest : α → Execution γ} {rightRest : β → Execution δ}
    (alike : AlikeOutcomes results places left right)
    (rest : ∀ first second, left = .ok first → results first second →
      ProgramsAlike faults states others (leftRest first) (rightRest second)) :
    ProgramsAlike faults states others (ofExcept left >>= leftRest)
      (ofExcept right >>= rightRest) := by
  cases alike with
  | ok same => exact rest _ _ rfl same
  | error raised => exact .throw (parallel.raised raised)

/-- What is done with the session looked at is done in that session. -/
theorem look_alike {α β : Type} {results : α → β → Prop} {rest : Session → Execution α}
    {rest' : Session → Execution β}
    (alike : ∀ session other, states session other →
      Option.Rel (EndAlike faults states results) (rest session session) (rest' other other)) :
    ProgramsAlike faults states results (get >>= rest) (get >>= rest') :=
  fun session other kept => alike session other kept

section

variable {place other : Location} {pieces others : List (Piece Tree)}

theorem define_alike (parallel : SessionsParallel places faults states) (here : places place other)
    (beside : List.Forall₂ (Piece.Beside (Tree.Beside places)) pieces others) :
    ProgramsAlike faults states (· = ·) (define place pieces) (define other others) := by
  apply told_alike parallel (Statement.definition_beside here beside)
  intro definition definition' _ definitions
  apply (parallel.evaluate definitions.value).bind
  rintro computed _ rfl
  have stored : ∀ value : Value, ProgramsAlike faults states (· = ·)
      (do setScope ((← get).scope.defineVariable definition.name value)
          return value)
      (do setScope ((← get).scope.defineVariable definition'.name value)
          return value) := by
    intro value session session' kept
    rw [← definitions.name]
    exact .some (.ok rfl (parallel.defineVariable kept definition.name value))
  rw [← definitions.kind]
  cases definition.kind? with
  | none =>
      apply ProgramsAlike.bind (.pure rfl)
      rintro value _ rfl
      exact stored value
  | some kind =>
      apply told_alike parallel (located_beside (convert_bare computed kind)
        (Tree.place_of_beside definitions.value))
      rintro value _ _ rfl
      exact stored value

theorem unassignable_beside {scope scope' : Scope} {name : String}
    (callables : (scope.callable? name).isSome = (scope'.callable? name).isSome)
    (here : places place other) :
    (unassignable scope name place).RaisedBeside places (unassignable scope' name other) := by
  rw [unassignable, unassignable, ← callables]
  have bare : (Fault.of (.undefinedVariable name)).IsBare := Fault.bare_of_cause (by simp)
  exact .located (Fault.bare_with_note bare (by split <;> simp)) here

theorem assign_alike (parallel : SessionsParallel places faults states) (here : places place other)
    (beside : List.Forall₂ (Piece.Beside (Tree.Beside places)) pieces others) :
    ProgramsAlike faults states (· = ·) (assign place pieces) (assign other others) := by
  apply told_alike parallel (Statement.assignment_beside here beside)
  intro assignment assignment' _ assignments
  apply look_alike
  intro session session' kept
  rw [← assignments.name, ← parallel.values kept]
  cases session.scope.value? assignment.name with
  | none =>
      have unassigned := unassignable_beside (parallel.callables kept assignment.name) here
      exact .some (.error (parallel.raised unassigned) kept)
  | some current =>
      refine ((parallel.evaluate assignments.value).bind ?_) session session' kept
      rintro computed _ rfl
      apply told_alike parallel (located_beside (convert_bare computed current.kind)
        (Tree.place_of_beside assignments.value))
      rintro value _ _ rfl
      apply look_alike
      intro later later' kept
      have values := parallel.values kept assignment.name
      cases found : later.scope.value? assignment.name with
      | none =>
          obtain ⟨_, refused⟩ := Scope.assign_of_none found value
          obtain ⟨_, refused'⟩ := Scope.assign_of_none (values.symm.trans found) value
          rw [refused, refused']
          have bare : (Fault.of (.undefinedVariable assignment.name)).IsBare :=
            Fault.bare_of_cause (by simp)
          exact .some (.error (parallel.raised (.located bare here)) kept)
      | some _ =>
          obtain ⟨_, assigned, _⟩ := Scope.assign_of_value found value
          obtain ⟨_, assigned', _⟩ := Scope.assign_of_value (values.symm.trans found) value
          rw [assigned, assigned']
          exact .some (.ok rfl (parallel.assign kept assigned assigned'))

theorem echo_alike (parallel : SessionsParallel places faults states) (here : places place other)
    (beside : List.Forall₂ (Piece.Beside (Tree.Beside places)) pieces others) :
    ProgramsAlike faults states (· = ·) (echo place pieces) (echo other others) := by
  apply told_alike parallel (Statement.echoed_beside here beside)
  intro tree tree' _ trees
  apply (parallel.evaluate trees).bind
  rintro value _ rfl
  exact fun _ _ kept => .some (.ok rfl (parallel.writeLine kept value.text))

theorem define_callable_alike (parallel : SessionsParallel places faults states)
    (here : places place other)
    (beside : List.Forall₂ (Piece.Beside (Tree.Beside places)) pieces others) :
    ProgramsAlike faults states (· = ·) (defineCallable place pieces)
      (defineCallable other others) := by
  apply told_alike parallel (Statement.callable_beside here beside)
  intro callable callable' found callables
  exact fun _ _ kept => .some (.ok rfl (parallel.defineCallable kept found callables))

end

/-- A statement goes on alike in related sessions. -/
theorem of_tree_alike (parallel : SessionsParallel places faults states) {tree other : Tree}
    (beside : tree.Beside places other) :
    ProgramsAlike faults states (· = ·) (ofTree tree) (ofTree other) := by
  have here := Tree.place_of_beside beside
  have pieces := Tree.pieces_of_beside beside
  have evaluated : ProgramsAlike faults states (· = ·) (some <$> evaluate tree)
      (some <$> evaluate other) :=
    (parallel.evaluate beside).map fun _ _ same => congrArg some same
  unfold ofTree
  rw [← Tree.production_of_beside beside]
  cases tree.production with
  | newline => exact .pure rfl
  | varDefine => exact (define_alike parallel here pieces).map fun _ _ same => congrArg some same
  | varAssign => exact (assign_alike parallel here pieces).map fun _ _ same => congrArg some same
  | echo => exact (echo_alike parallel here pieces).map fun _ _ same => congrArg some same
  | callableDefine => exact (define_callable_alike parallel here pieces).bind fun _ _ _ => .pure rfl
  | parameters => exact .throw (parallel.raised (Fault.malformed_beside here))
  | signature => exact .throw (parallel.raised (Fault.malformed_beside here))
  | arguments => exact .throw (parallel.raised (Fault.malformed_beside here))
  | expr => exact evaluated
  | term => exact evaluated
  | factor => exact evaluated
  | atom => exact evaluated
  | call => exact evaluated
  | intLiteral => exact evaluated
  | numLiteral => exact evaluated
  | identifier => exact evaluated

/-- Statement by statement, programs go on alike in related sessions. -/
theorem of_trees_alike (parallel : SessionsParallel places faults states) {trees others : List Tree}
    (beside : List.Forall₂ (Tree.Beside places) trees others) (last : Option Value) :
    ProgramsAlike faults states (· = ·) (ofTrees last trees) (ofTrees last others) := by
  induction beside generalizing last with
  | nil => exact .pure rfl
  | cons first _ induction =>
      apply (of_tree_alike parallel first).bind
      rintro value? _ rfl
      exact induction _

end Execution

end Reckon
