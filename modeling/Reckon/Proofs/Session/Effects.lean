import Reckon.Proofs.Evaluation.Termination

/-!
What statements leave behind. A statement looks at the session, and whatever it changes there it
changes last, when nothing can fail any more. So one that fails leaves the session as it was, and a
program that fails leaves what the statements before the failing one left. Under a limit on calls
every statement ends, and so does every program.
-/

namespace Reckon

namespace Execution

variable {α β : Type}

/-- The execution ends with the session it started with. Under a limit on calls it does end. -/
structure OnlyLooks (execution : Execution α) : Prop where
  kept : ∀ session outcome next, execution session = some (outcome, next) → next = session
  ended : ∀ session limit, session.calls.limit? = some limit →
    ∃ outcome next, execution session = some (outcome, next)

/-- The execution ends with the calls under way that it started with, and with the same session
where it fails. Under a limit on calls it does end. -/
structure ChangesLast (execution : Execution α) : Prop where
  calls : ∀ session outcome next, execution session = some (outcome, next) →
    next.calls = session.calls
  traceless : ∀ session fault next, execution session = some (.error fault, next) → next = session
  ended : ∀ session limit, session.calls.limit? = some limit →
    ∃ outcome next, execution session = some (outcome, next)

theorem only_looks_pure (result : α) : OnlyLooks (pure result) where
  kept session outcome next ran := by
    cases ran
    rfl
  ended session limit limited := ⟨.ok result, session, rfl⟩

theorem only_looks_throw (fault : Fault) : OnlyLooks (throw fault : Execution α) where
  kept session outcome next ran := by
    cases ran
    rfl
  ended session limit limited := ⟨.error fault, session, rfl⟩

theorem only_looks_of_except (outcome : Except Fault α) : OnlyLooks (ofExcept outcome) := by
  cases outcome with
  | ok result => exact only_looks_pure result
  | error fault => exact only_looks_throw fault

theorem only_looks_get : OnlyLooks (get : Execution Session) where
  kept session outcome next ran := by
    cases ran
    rfl
  ended session limit limited := ⟨.ok session, session, rfl⟩

theorem only_looks_evaluate (tree : Tree) : OnlyLooks (evaluate tree) where
  kept session outcome next ran := by
    obtain ⟨⟨result, calls⟩, evaluated, same⟩ := Option.map_eq_some_iff.mp ran
    cases same
    rw [Evaluation.within_restores evaluated]
  ended session limit limited := by
    obtain ⟨outcome, evaluated⟩ :=
      @Evaluation.evaluate_ends session.calls limit session.scope tree limited
    refine ⟨outcome, session, ?_⟩
    rw [evaluate, evaluated]
    rfl

theorem OnlyLooks.changes_last {execution : Execution α} (looks : OnlyLooks execution) :
    ChangesLast execution where
  calls session outcome next ran := congrArg Session.calls (looks.kept session outcome next ran)
  traceless session _ next ran := looks.kept session _ next ran
  ended := looks.ended

/-- Where nothing has changed before, what comes later is all that matters. -/
theorem OnlyLooks.bind {execution : Execution α} {rest : α → Execution β}
    (looks : OnlyLooks execution) (later : ∀ result, ChangesLast (rest result)) :
    ChangesLast (execution >>= rest) where
  calls session outcome next ran := by
    rcases ended_of_bind ran with ⟨fault, ended, rfl⟩ | ⟨result, middle, ended, continued⟩
    · rw [looks.kept _ _ _ ended]
    · obtain rfl := looks.kept _ _ _ ended
      exact (later result).calls _ _ _ continued
  traceless session fault next ran := by
    rcases ended_of_bind ran with ⟨fault, ended, _⟩ | ⟨result, middle, ended, continued⟩
    · exact looks.kept _ _ _ ended
    · obtain rfl := looks.kept _ _ _ ended
      exact (later result).traceless _ _ _ continued
  ended session limit limited := by
    obtain ⟨outcome, middle, ended⟩ := looks.ended session limit limited
    obtain rfl := looks.kept _ _ _ ended
    rw [bind_apply, ended]
    cases outcome with
    | error fault => exact ⟨.error fault, middle, rfl⟩
    | ok result => exact (later result).ended middle limit limited

theorem ChangesLast.map {execution : Execution α} (changes : ChangesLast execution)
    (function : α → β) : ChangesLast (function <$> execution) where
  calls session outcome next ran := by
    obtain ⟨_, ended, _⟩ := ended_of_map ran
    exact changes.calls _ _ _ ended
  traceless session fault next ran := by
    obtain ⟨inner, ended, same⟩ := ended_of_map ran
    cases inner with
    | error fault => exact changes.traceless _ _ _ ended
    | ok result => cases same
  ended session limit limited := by
    obtain ⟨outcome, next, ended⟩ := changes.ended session limit limited
    rw [map_apply, ended]
    exact ⟨_, _, rfl⟩

/-- A change that is the last thing done cannot be followed by a failure. -/
theorem changes_last_of_change (change : Session → Session) (result : α)
    (calls : ∀ session, (change session).calls = session.calls) :
    ChangesLast (do modify change; return result : Execution α) where
  calls session outcome next ran := by
    cases ran
    exact calls session
  traceless session fault next ran := by cases ran
  ended session limit limited := ⟨.ok result, change session, rfl⟩

section

variable (location : Location) (pieces : List (Piece Tree))

theorem define_changes_last : ChangesLast (define location pieces) := by
  apply (only_looks_of_except _).bind
  intro definition
  apply (only_looks_evaluate definition.value).bind
  intro computed
  have stored : ∀ value : Value, ChangesLast (do
      setScope ((← get).scope.defineVariable definition.name value)
      return value) := by
    intro value
    apply only_looks_get.bind
    intro session
    exact changes_last_of_change _ value fun _ => rfl
  cases definition.kind? with
  | none => exact (only_looks_pure computed).bind stored
  | some kind => exact (only_looks_of_except _).bind stored

theorem assign_changes_last : ChangesLast (assign location pieces) := by
  apply (only_looks_of_except _).bind
  intro assignment
  apply only_looks_get.bind
  intro session
  dsimp only
  split
  · exact (only_looks_throw _).changes_last
  · apply (only_looks_evaluate assignment.value).bind
    intro computed
    apply (only_looks_of_except _).bind
    intro value
    apply only_looks_get.bind
    intro later
    split
    · exact changes_last_of_change _ value fun _ => rfl
    · exact (only_looks_throw _).changes_last

theorem echo_changes_last : ChangesLast (echo location pieces) := by
  apply (only_looks_of_except _).bind
  intro tree
  apply (only_looks_evaluate tree).bind
  intro value
  exact changes_last_of_change _ value fun _ => rfl

theorem define_callable_changes_last : ChangesLast (defineCallable location pieces) := by
  apply (only_looks_of_except _).bind
  intro callable
  apply only_looks_get.bind
  intro session
  exact changes_last_of_change _ () fun _ => rfl

end

/-- Every statement changes the session last if at all, whatever its tree looks like. -/
theorem of_tree_changes_last (tree : Tree) : ChangesLast (ofTree tree) := by
  unfold ofTree
  cases tree.production with
  | newline => exact (only_looks_pure none).changes_last
  | varDefine => exact (define_changes_last _ _).map some
  | varAssign => exact (assign_changes_last _ _).map some
  | echo => exact (echo_changes_last _ _).map some
  | callableDefine => exact (define_callable_changes_last _ _).map fun _ => none
  | parameters => exact (only_looks_throw _).changes_last
  | signature => exact (only_looks_throw _).changes_last
  | arguments => exact (only_looks_throw _).changes_last
  | expr => exact (only_looks_evaluate tree).changes_last.map some
  | term => exact (only_looks_evaluate tree).changes_last.map some
  | factor => exact (only_looks_evaluate tree).changes_last.map some
  | atom => exact (only_looks_evaluate tree).changes_last.map some
  | call => exact (only_looks_evaluate tree).changes_last.map some
  | intLiteral => exact (only_looks_evaluate tree).changes_last.map some
  | numLiteral => exact (only_looks_evaluate tree).changes_last.map some
  | identifier => exact (only_looks_evaluate tree).changes_last.map some

theorem of_trees_append (last : Option Value) (before after : List Tree) :
    ofTrees last (before ++ after) =
      ofTrees last before >>= fun value? => ofTrees value? after := by
  induction before generalizing last with
  | nil =>
      rw [List.nil_append, ofTrees, pure_bind]
  | cons tree before induction =>
      rw [List.cons_append, ofTrees, ofTrees, bind_assoc]
      exact congrArg _ (funext fun value? => induction _)

/-- Where statements fail, one of them fails, in the session that those before it end with, and it
ends with that session itself. -/
theorem failing_among {trees : List Tree} {last : Option Value} {session final : Session}
    {fault : Fault} (failed : ofTrees last trees session = some (.error fault, final)) :
    ∃ before failing after, trees = before ++ failing :: after ∧
      (∃ value?, ofTrees last before session = some (.ok value?, final)) ∧
      ofTree failing final = some (.error fault, final) ∧ final.calls = session.calls := by
  induction trees generalizing last session with
  | nil => cases failed
  | cons tree trees induction =>
      rw [ofTrees] at failed
      rcases ended_of_bind failed with ⟨inner, ended, same⟩ | ⟨value?, next, ended, continued⟩
      · cases same
        obtain rfl := (of_tree_changes_last tree).traceless _ _ _ ended
        exact ⟨[], tree, trees, rfl, ⟨last, rfl⟩, ended, rfl⟩
      · obtain ⟨before, failing, after, rfl, ⟨result, ran⟩, stopped, calls⟩ := induction continued
        refine ⟨tree :: before, failing, after, rfl, ⟨result, ?_⟩, stopped, ?_⟩
        · rw [ofTrees, bind_apply, ended]
          exact ran
        · rw [calls]
          exact (of_tree_changes_last tree).calls _ _ _ ended

theorem of_trees_calls {last : Option Value} {trees : List Tree} {session next : Session}
    {outcome : Except Fault (Option Value)}
    (ran : ofTrees last trees session = some (outcome, next)) : next.calls = session.calls := by
  induction trees generalizing last session with
  | nil =>
      cases ran
      rfl
  | cons tree trees induction =>
      rw [ofTrees] at ran
      rcases ended_of_bind ran with ⟨_, ended, _⟩ | ⟨_, middle, ended, continued⟩
      · exact (of_tree_changes_last tree).calls _ _ _ ended
      · exact (induction continued).trans ((of_tree_changes_last tree).calls _ _ _ ended)

/-- Under a limit on calls programs end. -/
theorem of_trees_end {limit : Nat} {session : Session} (last : Option Value) (trees : List Tree)
    (limited : session.calls.limit? = some limit) :
    ∃ outcome next, ofTrees last trees session = some (outcome, next) := by
  induction trees generalizing last session with
  | nil => exact ⟨.ok last, session, rfl⟩
  | cons tree trees induction =>
      obtain ⟨outcome, middle, ended⟩ := (of_tree_changes_last tree).ended session limit limited
      rw [ofTrees, bind_apply, ended]
      cases outcome with
      | error fault => exact ⟨.error fault, middle, rfl⟩
      | ok value? =>
          apply induction
          rw [(of_tree_changes_last tree).calls _ _ _ ended]
          exact limited

end Execution

namespace Session

variable {scope : Scope} {limit? : Option Nat} {output : Output} {trees : List Tree}
  {fault : Fault} {final : Session}

/-- Where a program fails, one of its statements fails. The session is then the one that the
statements before it end with, no call is under way in it, and what stands after the failing
statement makes no difference. -/
theorem failing_statement_leaves_no_trace
    (failed : (start scope limit? output).execute trees = some (.error fault, final)) :
    ∃ before failing after, trees = before ++ failing :: after ∧
      (∃ value?, (start scope limit? output).execute before = some (.ok value?, final)) ∧
      Execution.ofTree failing final = some (.error fault, final) ∧
      final.calls = .start limit? ∧
      ∀ others, (start scope limit? output).execute (before ++ failing :: others) =
        some (.error fault, final) := by
  obtain ⟨before, failing, after, split, ⟨value?, ran⟩, stopped, calls⟩ :=
    Execution.failing_among failed
  refine ⟨before, failing, after, split, ⟨value?, ran⟩, stopped, calls, ?_⟩
  intro others
  rw [execute, Execution.of_trees_append, bind_apply, ran]
  change Execution.ofTrees value? (failing :: others) final = _
  rw [Execution.ofTrees, bind_apply, stopped]

/-- A name that stands for nothing: what was echoed before it is kept, and the assignment after it
is not made. -/
theorem undefined_name_leaves_no_trace :
    ∃ trees fault final, parse "a: = 1\necho a\nb\na = 2" = .ok trees ∧
      (start .empty (some 8) .empty).execute trees = some (.error fault, final) ∧
      final.output = .kept "1\n" ∧
      ∃ before failing after, trees = before ++ failing :: after ∧
        (∃ value?, (start .empty (some 8) .empty).execute before = some (.ok value?, final)) ∧
        Execution.ofTree failing final = some (.error fault, final) ∧
        final.calls = .start (some 8) ∧
        ∀ others, (start .empty (some 8) .empty).execute (before ++ failing :: others) =
          some (.error fault, final) := by
  have check : ((parse "a: = 1\necho a\nb\na = 2").toOption.any fun trees =>
      ((start .empty (some 8) .empty).execute trees).any fun result =>
        !result.1.toBool && result.2.output = .kept "1\n") = true := by decide +kernel
  cases read : parse "a: = 1\necho a\nb\na = 2" with
  | error error =>
      rw [read] at check
      cases check
  | ok trees =>
      rw [read] at check
      obtain ⟨_, ⟨⟩, check⟩ := (Option.any_eq_true _ _).mp check
      obtain ⟨⟨outcome, final⟩, executed, check⟩ := (Option.any_eq_true _ _).mp check
      rw [Bool.and_eq_true] at check
      cases outcome with
      | ok value? => cases check.1
      | error fault =>
          exact ⟨trees, fault, final, rfl, executed, of_decide_eq_true check.2,
            failing_statement_leaves_no_trace executed⟩

/-- With a limit on calls, every tree has an outcome in every scope, whatever calls are under way
and whatever the bodies of the callables call, and every program has one. Evaluation is one step,
which needs nothing but what the tasks come to that it goes on to: the trees inside its own with the
same calls under way, and the bodies of callables with one call less admitted. Tasks cannot go on to
tasks for ever. -/
theorem limited_evaluation_ends (limit : Nat) :
    (∀ (scope : Scope) (tree : Tree) (active : List Call), ∃ outcome,
      tree.evaluate scope ⟨active, some limit⟩ = some (outcome, ⟨active, some limit⟩)) ∧
    (∀ (trees : List Tree) (scope : Scope) (active : List Call) (output : Output),
      ∃ outcome next,
        execute trees ⟨scope, ⟨active, some limit⟩, output⟩ = some (outcome, next)) ∧
    (∀ (scope : Scope) (tree : Tree) (active : List Call) (other : Scope → Tree → Evaluation Value),
      (∀ task, Task.GoesOnTo ⟨scope, tree, ⟨active, some limit⟩⟩ task →
        other task.scope task.tree task.calls = task.tree.evaluate task.scope task.calls) →
      Evaluation.step other scope tree ⟨active, some limit⟩ =
        tree.evaluate scope ⟨active, some limit⟩) ∧
    WellFounded fun inner outer : Task => outer.GoesOnTo inner := by
  refine ⟨?_, ?_, ?_, Task.goes_on_to_well_founded⟩
  · intro scope tree active
    exact Evaluation.evaluate_ends rfl
  · intro trees scope active output
    exact Execution.of_trees_end none trees rfl
  · intro scope tree active other agrees
    exact Evaluation.step_eq_evaluate rfl agrees

/-- Calls that would go on for ever end under a limit, and the outcome is what one step makes of it
for the calls further in. -/
theorem endless_calls_end :
    (∃ outcome, (Tree.bareCall "f" .unknown).evaluate .endless ⟨[], some 3⟩ =
      some (outcome, ⟨[], some 3⟩)) ∧
    Evaluation.step (fun scope tree => tree.evaluate scope) .endless (.bareCall "f" .unknown)
        ⟨[], some 3⟩ =
      (Tree.bareCall "f" .unknown).evaluate .endless ⟨[], some 3⟩ := by
  obtain ⟨ended, _, stepped, _⟩ := limited_evaluation_ends 3
  exact ⟨ended .endless (.bareCall "f" .unknown) [],
    stepped .endless (.bareCall "f" .unknown) [] _ fun _ _ => rfl⟩

end Session

end Reckon
