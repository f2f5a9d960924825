import Reckon.Proofs.Grammar.Soundness
import Reckon.Proofs.Session.Defensive
import Reckon.Proofs.Session.Statements

/-!
Which faults a session can end in. The trees that run are those of programs that were read, and the
bodies of the callables in the scope come from such trees, so that the checks on pieces never fail
however many programs have run and however they ended.
-/

namespace Reckon

namespace Execution

variable {literals : String → Location → Prop} {α : Type}

/-- The scope of the session holds no bodies but known ones. -/
def Knows (literals : String → Location → Prop) (session : Session) : Prop :=
  Evaluation.KnowsBodies literals session.scope

/-- The execution keeps bodies known and ends in no other fault than a proper one. -/
def IsProper (literals : String → Location → Prop) (execution : Execution α) : Prop :=
  Ends (Knows literals) execution (fun _ => True) (Fault.IsProper literals)

theorem evaluate_ends {tree : Tree} (known : tree.IsKnown literals)
    (valued : tree.production.hasValue = true) : IsProper literals (evaluate tree) := by
  intro session outcome next bodies ran
  obtain ⟨⟨result, calls⟩, evaluated, same⟩ := Option.map_eq_some_iff.mp ran
  cases same
  obtain ⟨_, returned, failed⟩ :=
    Evaluation.evaluate_proper bodies known valued _ _ _ trivial evaluated
  exact ⟨bodies, returned, failed⟩

theorem set_scope_ends {scope : Scope} {fails : Fault → Prop}
    (bodies : Evaluation.KnowsBodies literals scope) :
    Ends (Knows literals) (setScope scope) (fun _ => True) fails :=
  Ends.modify fun _ _ => bodies

section

variable {scope : Scope}

theorem knows_define_variable {name : String} {value : Value}
    (bodies : Evaluation.KnowsBodies literals scope) :
    Evaluation.KnowsBodies literals (scope.defineVariable name value) :=
  fun other callable found => bodies other callable (Scope.callable_of_define_variable found)

theorem knows_define_callable {callable : Callable} (produced : callable.body.production = .expr)
    (known : callable.body.IsKnown literals) (bodies : Evaluation.KnowsBodies literals scope) :
    Evaluation.KnowsBodies literals (scope.defineCallable callable) := by
  intro other found same
  rcases Scope.callable_of_define_callable same with rfl | before
  · exact ⟨produced, known⟩
  · exact bodies other found before

theorem knows_assign {name : String} {value : Value} {next : Scope}
    (assigned : scope.assign name value = .ok next)
    (bodies : Evaluation.KnowsBodies literals scope) :
    Evaluation.KnowsBodies literals next :=
  fun other callable found => bodies other callable (Scope.callable_of_assign assigned found)

end

variable {pieces : List (Piece Tree)} {location : Location}

theorem define_proper (allowed : Shape.Allows Tree.production .varDefine pieces)
    (known : ∀ tree, .tree tree ∈ pieces → tree.IsKnown literals) :
    IsProper literals (define location pieces) := by
  have shaped : ∀ tree, .tree tree ∈ pieces → tree.FollowsTable := fun tree member =>
    (known tree member).shaped tree .whole
  refine (Ends.told (Statement.definition_ends allowed shaped)).bind fun definition found => ?_
  obtain ⟨member, produced⟩ := found
  refine (evaluate_ends (known _ member) (by rw [produced]; rfl)).bind fun computed _ => ?_
  have stored : ∀ value : Value, IsProper literals (do
      setScope ((← get).scope.defineVariable definition.name value)
      return value) := by
    intro value
    refine Ends.get.bind fun session bodies => ?_
    exact (set_scope_ends (knows_define_variable bodies)).bind fun _ _ => .pure trivial
  cases definition.kind? with
  | none =>
      have kept : IsProper literals (pure computed) := Ends.pure trivial
      exact kept.bind fun value _ => stored value
  | some kind => exact (Ends.told convert_proper).bind fun value _ => stored value

theorem assign_proper (allowed : Shape.Allows Tree.production .varAssign pieces)
    (known : ∀ tree, .tree tree ∈ pieces → tree.IsKnown literals) :
    IsProper literals (assign location pieces) := by
  have shaped : ∀ tree, .tree tree ∈ pieces → tree.FollowsTable := fun tree member =>
    (known tree member).shaped tree .whole
  refine (Ends.told (Statement.assignment_ends allowed shaped)).bind fun assignment found => ?_
  obtain ⟨member, produced⟩ := found
  refine Ends.get.bind fun session _ => ?_
  dsimp only
  split
  · exact .throw (Fault.proper_of_ordinary trivial)
  · refine (evaluate_ends (known _ member) (by rw [produced]; rfl)).bind fun computed _ => ?_
    refine (Ends.told convert_proper).bind fun value _ => ?_
    refine Ends.get.bind fun later bodies => ?_
    split
    · next assigned =>
        exact (set_scope_ends (knows_assign assigned bodies)).bind fun _ _ => .pure trivial
    · exact .throw (Fault.proper_of_ordinary trivial)

theorem echo_proper (allowed : Shape.Allows Tree.production .echo pieces)
    (known : ∀ tree, .tree tree ∈ pieces → tree.IsKnown literals) :
    IsProper literals (echo location pieces) := by
  refine (Ends.told (Statement.echoed_ends allowed)).bind fun value found => ?_
  obtain ⟨member, produced⟩ := found
  refine (evaluate_ends (known _ member) (by rw [produced]; rfl)).bind fun computed _ => ?_
  refine Ends.bind (Ends.modify ?_) fun _ _ => .pure trivial
  exact fun _ bodies => bodies

theorem define_callable_proper (allowed : Shape.Allows Tree.production .callableDefine pieces)
    (known : ∀ tree, .tree tree ∈ pieces → tree.IsKnown literals) :
    IsProper literals (defineCallable location pieces) := by
  refine (Ends.told (Statement.callable_ends allowed fun tree member =>
    (known tree member).shaped)).bind fun callable found => ?_
  obtain ⟨member, produced⟩ := found
  refine Ends.get.bind fun session bodies => ?_
  exact set_scope_ends (knows_define_callable produced (known _ member) bodies)

/-- A statement of a program that was read. -/
theorem of_tree_proper {tree : Tree} (known : tree.IsKnown literals)
    (topLevel : tree.production ∈
      [.newline, .echo, .varDefine, .varAssign, .callableDefine, .expr]) :
    IsProper literals (ofTree tree) := by
  obtain ⟨production, pieces, location⟩ := tree
  have allowed : Shape.Allows Tree.production production pieces :=
    (Tree.everywhere_node.mp known.shaped).1
  have inside : ∀ tree, .tree tree ∈ pieces → tree.IsKnown literals := fun _ member =>
    known.inside member
  simp only [Tree.production, List.mem_cons, List.not_mem_nil, or_false] at topLevel
  rcases topLevel with rfl | rfl | rfl | rfl | rfl | rfl
  · exact .pure trivial
  · exact (echo_proper allowed inside).map fun _ _ => trivial
  · exact (define_proper allowed inside).map fun _ _ => trivial
  · exact (assign_proper allowed inside).map fun _ _ => trivial
  · exact (define_callable_proper allowed inside).bind fun _ _ => .pure trivial
  · exact (evaluate_ends known rfl).map fun _ _ => trivial

theorem of_trees_proper {trees : List Tree} {last : Option Value}
    (known : ∀ tree ∈ trees, tree.IsKnown literals)
    (topLevel : ∀ tree ∈ trees, tree.production ∈
      [.newline, .echo, .varDefine, .varAssign, .callableDefine, .expr]) :
    IsProper literals (ofTrees last trees) := by
  induction trees generalizing last with
  | nil => exact .pure trivial
  | cons tree trees induction =>
      have first := of_tree_proper (known tree (by simp)) (topLevel tree (by simp))
      refine first.bind fun value _ => ?_
      exact induction (fun other member => known other (by simp [member]))
        (fun other member => topLevel other (by simp [member]))

end Execution

namespace Session

/-- The integer literal with this text and place stands in a program that one of the texts parses
to. -/
def Writes (sources : List String) (text : String) (location : Location) : Prop :=
  ∃ source ∈ sources, ∃ forest, parse source = .ok forest ∧ ∃ tree ∈ forest,
    (Tree.leaf .intLiteral text location).PartOf tree

/-- The session has been reached from an empty scope by running the texts in order, whether or not
they failed. -/
inductive Reached : List String → Session → Prop where
  | start {session : Session} (empty : session.scope = .empty) : Reached [] session
  | run {sources : List String} {session next : Session} {source : String}
      {result : Except Failure (Option Value)} (before : Reached sources session)
      (ran : session.run source = some (result, next)) : Reached (sources ++ [source]) next

variable {sources : List String} {session next : Session} {source : String}
  {result : Except Failure (Option Value)}

theorem writes_append {text : String} {location : Location} (writes : Writes sources text location)
    (others : List String) : Writes (sources ++ others) text location := by
  obtain ⟨source, member, rest⟩ := writes
  exact ⟨source, List.mem_append_left _ member, rest⟩

theorem knows_append (bodies : Execution.Knows (Writes sources) session) (others : List String) :
    Execution.Knows (Writes (sources ++ others)) session := by
  intro name callable found
  obtain ⟨produced, known⟩ := bodies name callable found
  exact ⟨produced, known.shaped, fun text location part =>
    writes_append (known.literal text location part) others⟩

/-- One run keeps bodies known and ends in proper faults only. -/
theorem run_ends (bodies : Execution.Knows (Writes sources) session)
    (ran : session.run source = some (result, next)) :
    Execution.Knows (Writes (sources ++ [source])) next ∧ ∀ fault, result = .error (.faulty fault) →
      fault.IsProper (Writes (sources ++ [source])) := by
  have before := knows_append bodies [source]
  unfold run at ran
  cases parsed : parse source with
  | error error =>
      simp only [parsed, Option.some.injEq, Prod.mk.injEq] at ran
      obtain ⟨rfl, rfl⟩ := ran
      exact ⟨before, by rintro fault ⟨⟩⟩
  | ok trees =>
      have program := program_of_parse parsed
      have known : ∀ tree ∈ trees, tree.IsKnown (Writes (sources ++ [source])) := by
        intro tree member
        refine ⟨program.shaped tree member, fun text location part => ?_⟩
        exact ⟨source, by simp, trees, parsed, tree, member, part⟩
      simp only [parsed] at ran
      obtain ⟨⟨outcome, after⟩, executed, same⟩ := Option.map_eq_some_iff.mp ran
      cases same
      obtain ⟨bodies, _, failed⟩ := Execution.of_trees_proper known program.topLevel
        session outcome after before executed
      refine ⟨bodies, fun fault failing => ?_⟩
      cases outcome with
      | ok value => cases failing
      | error inner =>
          cases failing
          exact failed _ rfl

theorem knows_of_reached (reached : Reached sources session) :
    Execution.Knows (Writes sources) session := by
  induction reached with
  | start empty =>
      intro name callable found
      rw [empty, Scope.empty_callable?] at found
      cases found
  | run _ ran bodies => exact (run_ends bodies ran).1

/-- No run of a session that starts from an empty scope finds a tree malformed or refuses a literal,
except an integer literal of a program that was read whose number is beyond 64 bits; and what stands
in the branches for an argument without a parameter and for a variable that is gone is never
done. -/
theorem run_takes_parsed_shapes (reached : Reached sources session)
    (ran : session.run source = some (result, next)) :
    (∀ fault, result = .error (.faulty fault) → fault.code ≠ .malformedTree) ∧
    (∀ fault kind text, result = .error (.faulty fault) → fault.cause = .invalidLiteral kind text →
      kind = .int ∧
      (∃ location, fault.location? = some location ∧
        Writes (sources ++ [source]) text location) ∧
      ∃ value, Number.exactInteger? text.toList = some value ∧ Number.IsBeyond value) ∧
    (∀ fallback, Evaluation.call = Evaluation.callOr fallback) ∧
    ∀ fallback, Execution.assign = Execution.assignOr fallback := by
  have proper := (run_ends (knows_of_reached reached) ran).2
  refine ⟨?_, ?_, Evaluation.call_eq_call_or, Execution.assign_eq_assign_or⟩
  · intro fault failed malformed
    have here := proper fault failed
    obtain ⟨cause, location?, notes⟩ := fault
    cases cause <;> first | exact here | cases malformed
  · intro fault kind text failed same
    have here := proper fault failed
    unfold Fault.IsProper at here
    rw [same] at here
    exact here

/-- A literal beyond 64 bits in the body of a callable is refused once that is called. -/
theorem run_takes_parsed_shapes_of_call :
    ∃ first second fault, Reached ["f: int(n: int) = n + 99999999999999999999"] first ∧
      first.run "f(n = 1)" = some (.error (.faulty fault), second) ∧
      fault.code = .invalidLiteral ∧ fault.code ≠ .malformedTree ∧
      (∀ kind text, fault.cause = .invalidLiteral kind text → kind = .int) ∧
      ∀ fallback, Evaluation.call = Evaluation.callOr fallback := by
  have check : (((Session.start .empty (some 8) .empty).run
      "f: int(n: int) = n + 99999999999999999999").bind fun ran => ran.2.run "f(n = 1)").any
        (fun ran => match ran.1 with
          | .error (.faulty fault) => fault.code = .invalidLiteral
          | _ => false) = true := by decide +kernel
  obtain ⟨⟨result, second⟩, ran, code⟩ := (Option.any_eq_true _ _).mp check
  obtain ⟨⟨before, first⟩, firstRan, ran⟩ := Option.bind_eq_some_iff.mp ran
  have reached : Reached ["f: int(n: int) = n + 99999999999999999999"] first :=
    .run (.start rfl) firstRan
  match result with
  | .ok _ => cases code
  | .error (.unreadable _) => cases code
  | .error (.faulty fault) =>
      obtain ⟨wellShaped, literals, calls, _⟩ := run_takes_parsed_shapes reached ran
      refine ⟨first, second, fault, reached, ran, of_decide_eq_true code, wellShaped fault rfl, ?_,
        calls⟩
      exact fun kind text same => (literals fault kind text rfl same).1

end Session

end Reckon
