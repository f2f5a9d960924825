import Reckon.Proofs.Evaluation.Conversions
import Reckon.Proofs.Number.Truncation
import Reckon.Proofs.Session.Literals
import Reckon.Proofs.Session.Statements
import Reckon.Proofs.Session.Targets

/-!
Where statements convert values. A definition converts its value to the kind that it declares and an
assignment to that of its variable, and the expression of a statement may call something that does.
Converting a real number to an integer is exact or fails, and where it fails, so does the statement,
which then leaves the session as it was.
-/

namespace Reckon

namespace Statement

variable {location : Location} {pieces : List (Piece Tree)}

theorem name_of_piece {tree : Tree} {name expected : String} {construct : Production}
    (named : tree.name? = some name) :
    nameOf construct location expected (.tree tree) = .ok name := by
  rw [nameOf, Piece.tree?, Option.bind_some, named]

theorem kind_of_piece {tree : Tree} {kind : Kind} {construct : Production}
    (known : tree.name?.bind Kind.ofName? = some kind) :
    kindOf construct location (.tree tree) = .ok kind := by
  obtain ⟨name, named, known⟩ := Option.bind_eq_some_iff.mp known
  simp only [kindOf, name_of_piece named, bind, Except.bind, known]

/-- A definition is found among pieces that are written as one. -/
theorem definition_found {definition : Definition} (written : definition.Written pieces)
    (fits : definition.value.production = .expr) :
    Definition.ofPieces location pieces = .ok definition := by
  cases written with
  | declared named known =>
      simp only [Definition.ofPieces, Piece.isToken, Piece.token?, name_of_piece named,
        kind_of_piece known, expression_of_fitting fits, bind, Except.bind]
      rfl
  | inferred named =>
      simp only [Definition.ofPieces, Piece.isToken, Piece.token?, name_of_piece named,
        expression_of_fitting fits, bind, Except.bind]
      rfl

theorem assignment_found {assignment : Assignment} (written : assignment.Written pieces)
    (fits : assignment.value.production = .expr) :
    Assignment.ofPieces location pieces = .ok assignment := by
  cases written with
  | assigned named =>
      simp only [Assignment.ofPieces, Piece.isToken, Piece.token?, name_of_piece named,
        expression_of_fitting fits, bind, Except.bind]
      rfl

end Statement

namespace Execution

variable {session : Session} {tree expression : Tree} {kind : Kind} {value : Value}
  {place : Location} {fault : Fault}

/-- The expression is what the statement evaluates. An assignment comes to that only for a name that
is a variable. -/
inductive Computes (session : Session) : Tree → Tree → Prop where
  | definition {tree : Tree} {definition : Statement.Definition}
      (produced : tree.production = .varDefine) (written : definition.Written tree.pieces)
      (fits : definition.value.production = .expr) : Computes session tree definition.value
  | assignment {tree : Tree} {assignment : Statement.Assignment} {current : Value}
      (produced : tree.production = .varAssign) (written : assignment.Written tree.pieces)
      (fits : assignment.value.production = .expr)
      (known : session.scope.value? assignment.name = some current) :
      Computes session tree assignment.value
  | echo {expression : Tree} {place : Location} (fits : expression.production = .expr) :
      Computes session (.node .echo [.token "echo", .tree expression] place) expression
  | bare {tree : Tree} (valued : tree.production.hasValue = true) : Computes session tree tree

/-- On the way to the end of the statement, a value that has been computed is to be converted to a
declared kind, and it is what the expression at the place came to. -/
inductive Meets (session : Session) : Tree → Kind → Value → Location → Prop where
  | definition {tree : Tree} {definition : Statement.Definition} {kind : Kind} {value : Value}
      (produced : tree.production = .varDefine) (written : definition.Written tree.pieces)
      (fits : definition.value.production = .expr) (declared : definition.kind? = some kind)
      (came : definition.value.evaluate session.scope session.calls =
        some (.ok value, session.calls)) :
      Meets session tree kind value definition.value.location
  | assignment {tree : Tree} {assignment : Statement.Assignment} {current value : Value}
      (produced : tree.production = .varAssign) (written : assignment.Written tree.pieces)
      (fits : assignment.value.production = .expr)
      (known : session.scope.value? assignment.name = some current)
      (came : assignment.value.evaluate session.scope session.calls =
        some (.ok value, session.calls)) :
      Meets session tree current.kind value assignment.value.location
  | inside {tree expression : Tree} {kind : Kind} {value : Value} {place : Location}
      (computes : Computes session tree expression)
      (meets : Evaluation.Meets (Evaluation.allowance session.scope session.calls) session.scope
        expression session.calls kind value place) :
      Meets session tree kind value place

theorem evaluate_eq {outcome : Except Fault Value}
    (ended : expression.evaluate session.scope session.calls = some (outcome, session.calls)) :
    evaluate expression session = some (outcome, session) := by
  rw [evaluate, ended]
  rfl

theorem of_told {α : Type} {outcome : Except Fault α} {rest : α → Execution Value} {result : α}
    (told : outcome = .ok result) : (ofExcept outcome >>= rest) session = rest result session := by
  rw [told]
  rfl

theorem fails_of_statement {execution : Execution Value}
    (statement : ofTree tree = some <$> execution)
    (failed : execution session = some (.error fault, session)) :
    ofTree tree session = some (.error fault, session) := by
  rw [statement, map_apply, failed]
  rfl

theorem of_tree_define (produced : tree.production = .varDefine) :
    ofTree tree = some <$> define tree.location tree.pieces := by
  rw [ofTree, produced]

theorem of_tree_assign (produced : tree.production = .varAssign) :
    ofTree tree = some <$> assign tree.location tree.pieces := by
  rw [ofTree, produced]

theorem of_tree_bare (valued : tree.production.hasValue = true) :
    ofTree tree = some <$> evaluate tree := by
  rw [ofTree]
  cases produced : tree.production <;> rw [produced] at valued <;> first | rfl | cases valued

/-- An assignment to a variable evaluates its expression. -/
theorem assign_eq {assignment : Statement.Assignment} {current : Value}
    (written : assignment.Written tree.pieces) (fits : assignment.value.production = .expr)
    (known : session.scope.value? assignment.name = some current) :
    assign tree.location tree.pieces session = (do
      let computed ← evaluate assignment.value
      let value ← ofExcept (located assignment.value.location (computed.convert current.kind))
      match (← get).scope.assign assignment.name value with
      | .ok scope => do
          setScope scope
          return value
      | .error _ => throw ((Fault.of (.undefinedVariable assignment.name)).locate tree.location))
        session := by
  have looked : (get : Execution Session) session = some (.ok session, session) := rfl
  rw [assign, of_told (Statement.assignment_found written fits), bind_apply, looked]
  dsimp only
  rewrite [known]
  rfl

/-- A statement whose expression fails does so too. -/
theorem fails_of_computed (computes : Computes session tree expression)
    (failed : evaluate expression session = some (.error fault, session)) :
    ofTree tree session = some (.error fault, session) := by
  cases computes with
  | definition produced written fits =>
      apply fails_of_statement (of_tree_define produced)
      rw [define, of_told (Statement.definition_found written fits)]
      exact fails_of_first failed
  | assignment produced written fits known =>
      apply fails_of_statement (of_tree_assign produced)
      rw [assign_eq written fits known]
      exact fails_of_first failed
  | @echo _ place fits =>
      have statement : ofTree (.node .echo [.token "echo", .tree expression] place) =
          some <$> echo place [.token "echo", .tree expression] := rfl
      refine fails_of_statement statement ?_
      have found : Statement.echoed place [.token "echo", .tree expression] = .ok expression :=
        Statement.expression_of_fitting fits
      rw [echo, of_told found]
      exact fails_of_first failed
  | bare valued => exact fails_of_statement (of_tree_bare valued) failed

/-- A value that does not fit ends the statement where it meets its kind. -/
theorem fails_of_meets (meets : Meets session tree kind value place)
    (unfit : value.convert? kind = none) :
    ∃ notes, ofTree tree session =
      some (.error ⟨.incompatibleValue kind value, some place, notes⟩, session) := by
  cases meets with
  | definition produced written fits declared came =>
      refine ⟨[], fails_of_statement (of_tree_define produced) ?_⟩
      rw [define, of_told (Statement.definition_found written fits)]
      refine fails_of_second (evaluate_eq came) ?_
      rw [declared]
      refine fails_of_first ?_
      rw [Evaluation.convert_unfit unfit]
      rfl
  | assignment produced written fits known came =>
      refine ⟨[], fails_of_statement (of_tree_assign produced) ?_⟩
      rw [assign_eq written fits known]
      refine fails_of_second (evaluate_eq came) (fails_of_first ?_)
      rw [Evaluation.convert_unfit unfit]
      rfl
  | inside computes meets =>
      obtain ⟨notes, ended⟩ := Evaluation.refuses_of_meets meets unfit
      exact ⟨notes, fails_of_computed computes (evaluate_eq ended)⟩

/-- Whatever its bits are, a real number becomes the integer that is left when its fraction is cut
off, if 64 bits hold that, and otherwise is refused unchanged, as infinity and what is no number
always are. Wherever a statement converts a value to a declared kind, such a refusal ends it with
that fault, located at the expression that came to the value, and leaves the session as it was. -/
theorem narrowing_is_exact_or_refused :
    (∀ bits : UInt64,
      (∀ exact ∈ Number.exactValue? bits,
        -2 ^ 63 ≤ truncated exact → truncated exact < 2 ^ 63 →
          ∃ number : Int64, number.toInt = truncated exact ∧
            (Value.num (.ofBits bits)).convert .int = .ok (.int number)) ∧
      ((∀ exact ∈ Number.exactValue? bits,
        truncated exact < -2 ^ 63 ∨ 2 ^ 63 ≤ truncated exact) →
          (Value.num (.ofBits bits)).convert .int =
            .error (.of (.incompatibleValue .int (.num (.ofBits bits)))))) ∧
    ∀ session tree bits place, Meets session tree .int (.num (.ofBits bits)) place →
      (∀ exact ∈ Number.exactValue? bits,
        truncated exact < -2 ^ 63 ∨ 2 ^ 63 ≤ truncated exact) →
      ∃ notes, ofTree tree session = some (.error
        ⟨.incompatibleValue .int (.num (.ofBits bits)), some place, notes⟩, session) := by
  refine ⟨Value.convert_to_int, fun session tree bits place meets beyond => ?_⟩
  have refused := (Value.convert_to_int bits).2 beyond
  apply fails_of_meets meets
  rw [Value.convert] at refused
  cases converted : (Value.num (.ofBits bits)).convert? .int with
  | none => rfl
  | some result =>
      rw [converted] at refused
      cases refused

/-- The least number that is too large. -/
theorem two_to_the_63_is_refused :
    ∃ tree notes, parse "x: int = 9223372036854775808.0" = .ok [tree] ∧
      ofTree tree (.start .empty none .empty) = some (.error
        ⟨.incompatibleValue .int (.num (.ofBits 0x43E0000000000000)),
          some ⟨⟨9, 30⟩, ⟨1, 10⟩⟩, notes⟩, .start .empty none .empty) := by
  have bits : (Number.readNum? "9223372036854775808.0").map Float.toBits =
      some 0x43E0000000000000 := by decide +kernel
  obtain ⟨number, read, same⟩ := Option.map_eq_some_iff.mp bits
  have came : Value.read "9223372036854775808.0" .num =
      .ok (.num (.ofBits 0x43E0000000000000)) := by
    rw [Value.read, Value.read?, read, ← same, Float.ofBits_toBits]
    rfl
  have exact : Number.exactValue? 0x43E0000000000000 = some (2 ^ 63) := by decide +kernel
  let value : Tree := .ofNumber .numLiteral "9223372036854775808.0" ⟨⟨9, 30⟩, ⟨1, 10⟩⟩
  let name : Tree := .leaf .identifier "x" ⟨⟨0, 1⟩, ⟨1, 1⟩⟩
  let declared : Tree := .leaf .identifier "int" ⟨⟨3, 6⟩, ⟨1, 4⟩⟩
  let tree : Tree := .node .varDefine [.tree name, .token ":", .tree declared, .token "=",
    .tree value] ⟨⟨0, 30⟩, ⟨1, 1⟩⟩
  have written : Statement.Definition.Written ⟨"x", some .int, value⟩ tree.pieces :=
    .declared rfl rfl
  have meets : Meets (.start .empty none .empty) tree .int (.num (.ofBits 0x43E0000000000000))
      ⟨⟨9, 30⟩, ⟨1, 10⟩⟩ := by
    refine .definition rfl written rfl rfl ?_
    rw [Evaluation.evaluate_number (.inr ⟨rfl, rfl⟩), came]
    rfl
  obtain ⟨notes, failed⟩ := narrowing_is_exact_or_refused.2 _ tree _ _ meets (by
    rw [exact]
    rintro _ ⟨⟩
    exact .inr (by decide +kernel))
  exact ⟨tree, notes, rfl, failed⟩

end Execution

end Reckon
