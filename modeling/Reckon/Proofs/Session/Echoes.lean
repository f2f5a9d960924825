import Reckon.Proofs.Number.Characters
import Reckon.Proofs.Session.Effects

/-!
What a session writes. An echo writes the text of its value as a line once the value is known, and
nothing else writes. So the output is told by the statements that were executed since it was last
cleared: it has one line for every echo whose expression had a value, in their order. What a program
comes to is the value of its last statement that has one.
-/

namespace Reckon

/-- The expression of an echo. -/
def Tree.echoed? : Tree → Option Tree
  | .node .echo [.token keyword, .tree value] _ =>
      if keyword = "echo" ∧ value.production = .expr then some value else none
  | _ => none

/-- The statement is a newline or the definition of a callable, which have no value. -/
def Tree.isSilent (tree : Tree) : Bool :=
  tree.production == .newline || tree.production == .callableDefine

namespace Output

/-- The lines of values. -/
def lines (values : List Value) : String :=
  String.join (values.map fun value => value.text ++ "\n")

def writeValues (output : Output) (values : List Value) : Output :=
  values.foldl (fun output value => output.writeLine value.text) output

end Output

namespace Session

/-- The value that a statement echoes, if it is an echo and its expression has a value. -/
def echoed? (session : Session) (tree : Tree) : Option Value :=
  tree.echoed?.bind fun expression =>
    Evaluation.value? (expression.evaluate session.scope session.calls)

end Session

namespace Execution

/-- The statements that are executed, up to one that fails, each with the session it finds. -/
def executed : List Tree → Session → List (Session × Tree)
  | [], _ => []
  | tree :: rest, session =>
      (session, tree) ::
        match ofTree tree session with
        | some (.ok _, next) => executed rest next
        | some (.error _, _) => []
        | none => []

/-- The values that are echoed while statements are executed. -/
def echoes (trees : List Tree) (session : Session) : List Value :=
  (executed trees session).filterMap fun found => found.1.echoed? found.2

end Execution

namespace Session

/-- What is done with a session. -/
inductive Action where
  | run (source : String)
  | execute (trees : List Tree)
  | clear

/-- The session after an action, whether or not that fails. -/
def perform (session : Session) : Action → Option Session
  | .run source => (session.run source).map Prod.snd
  | .execute trees => (session.execute trees).map Prod.snd
  | .clear => some session.clearOutput

/-- What has been echoed since the output was last cleared, after one action more. -/
def log (session : Session) (values : List Value) : Action → List Value
  | .run source =>
      match parse source with
      | .ok trees => values ++ Execution.echoes trees session
      | .error _ => values
  | .execute trees => values ++ Execution.echoes trees session
  | .clear => []

/-- The session after some actions, with what has been echoed since the output was last cleared. -/
def follow (session : Session) (values : List Value) :
    List Action → Option (Session × List Value)
  | [] => some (session, values)
  | action :: rest =>
      match session.perform action with
      | some next => next.follow (session.log values action) rest
      | none => none

end Session

namespace Statement

/-- An expression is found among the pieces of an echo if that is what is echoed. -/
theorem echoed_eq (pieces : List (Piece Tree)) (place : Location) :
    (echoed place pieces).toOption = (Tree.node .echo pieces place).echoed? := by
  rcases pieces with _ | ⟨keyword, _ | ⟨value, _ | ⟨more, rest⟩⟩⟩
  · rfl
  · cases keyword <;> rfl
  · cases keyword with
    | tree inner => rfl
    | token text =>
        cases value with
        | token other =>
            rw [echoed]
            split <;> rfl
        | tree value =>
            have isToken :
                (Piece.token text : Piece Tree).isToken "echo" = decide (text = "echo") := rfl
            have found : expressionOf .echo place (.tree value) =
                if value.production = .expr then .ok value
                else .error (.malformed .echo "an expression" place) := by
              rw [expressionOf, Piece.tree?, Option.filter_some, beq_eq_decide]
              by_cases isExpr : value.production = .expr
              · rw [decide_eq_true isExpr, if_pos isExpr]
                rfl
              · rw [decide_eq_false isExpr, if_neg isExpr]
                rfl
            rw [echoed, isToken, found, Tree.echoed?]
            by_cases named : text = "echo"
            · by_cases isExpr : value.production = .expr
              · simp [named, isExpr, Except.toOption]
              · simp [named, isExpr, Except.toOption]
            · simp [named, Except.toOption]
  · cases keyword <;> cases value <;> rfl

end Statement

namespace Execution

variable {α β : Type} {session next : Session} {tree : Tree}

/-- The execution writes nothing. -/
def IsQuiet (execution : Execution α) : Prop :=
  ∀ session outcome next, execution session = some (outcome, next) → next.output = session.output

theorem OnlyLooks.quiet {execution : Execution α} (looks : OnlyLooks execution) :
    IsQuiet execution := fun session outcome next ran =>
  congrArg Session.output (looks.kept session outcome next ran)

theorem IsQuiet.bind {execution : Execution α} {rest : α → Execution β}
    (first : IsQuiet execution) (later : ∀ result, IsQuiet (rest result)) :
    IsQuiet (execution >>= rest) := by
  intro session outcome next ran
  rcases ended_of_bind ran with ⟨_, ended, _⟩ | ⟨result, middle, ended, continued⟩
  · exact first _ _ _ ended
  · exact (later result _ _ _ continued).trans (first _ _ _ ended)

theorem set_scope_quiet (scope : Scope) : IsQuiet (setScope scope) := by
  intro session outcome next ran
  cases ran
  rfl

theorem told_quiet (outcome : Except Fault α) : IsQuiet (ofExcept outcome) :=
  (only_looks_of_except outcome).quiet

section

variable (location : Location) (pieces : List (Piece Tree))

theorem define_quiet : IsQuiet (define location pieces) := by
  apply (told_quiet _).bind
  intro definition
  apply (only_looks_evaluate definition.value).quiet.bind
  intro computed
  have stored : ∀ value : Value, IsQuiet (do
      setScope ((← get).scope.defineVariable definition.name value)
      return value) := by
    intro value
    apply only_looks_get.quiet.bind
    intro session
    exact (set_scope_quiet _).bind fun _ => (only_looks_pure value).quiet
  cases definition.kind? with
  | none => exact (only_looks_pure computed).quiet.bind stored
  | some kind => exact (told_quiet _).bind stored

theorem assign_quiet : IsQuiet (assign location pieces) := by
  apply (told_quiet _).bind
  intro assignment
  apply only_looks_get.quiet.bind
  intro session
  dsimp only
  split
  · exact (only_looks_throw _).quiet
  · apply (only_looks_evaluate assignment.value).quiet.bind
    intro computed
    apply (told_quiet _).bind
    intro value
    apply only_looks_get.quiet.bind
    intro later
    split
    · exact (set_scope_quiet _).bind fun _ => (only_looks_pure value).quiet
    · exact (only_looks_throw _).quiet

theorem define_callable_quiet : IsQuiet (defineCallable location pieces) := by
  apply (told_quiet _).bind
  intro callable
  apply only_looks_get.quiet.bind
  intro session
  exact set_scope_quiet _

end

theorem IsQuiet.map {execution : Execution α} (quiet : IsQuiet execution) (function : α → β) :
    IsQuiet (function <$> execution) := by
  intro session outcome next ran
  obtain ⟨_, ended, _⟩ := ended_of_map ran
  exact quiet _ _ _ ended

/-- No statement but an echo writes. -/
theorem of_tree_quiet (other : tree.production ≠ .echo) : IsQuiet (ofTree tree) := by
  unfold ofTree
  cases produced : tree.production with
  | newline => exact (only_looks_pure none).quiet
  | varDefine => exact (define_quiet _ _).map some
  | varAssign => exact (assign_quiet _ _).map some
  | echo => exact absurd produced other
  | callableDefine => exact (define_callable_quiet _ _).map fun _ => none
  | parameters => exact (only_looks_throw _).quiet
  | signature => exact (only_looks_throw _).quiet
  | arguments => exact (only_looks_throw _).quiet
  | expr => exact (only_looks_evaluate tree).quiet.map some
  | term => exact (only_looks_evaluate tree).quiet.map some
  | factor => exact (only_looks_evaluate tree).quiet.map some
  | atom => exact (only_looks_evaluate tree).quiet.map some
  | call => exact (only_looks_evaluate tree).quiet.map some
  | intLiteral => exact (only_looks_evaluate tree).quiet.map some
  | numLiteral => exact (only_looks_evaluate tree).quiet.map some
  | identifier => exact (only_looks_evaluate tree).quiet.map some

/-- An echo writes the line of the value of its expression, and if there is none it writes nothing.
-/
theorem echo_writes {pieces : List (Piece Tree)} {place : Location} {outcome : Except Fault Value}
    (ran : echo place pieces session = some (outcome, next)) :
    next.output = session.output.writeValues
      (session.echoed? (.node .echo pieces place)).toList := by
  rw [Session.echoed?, ← Statement.echoed_eq]
  rw [echo] at ran
  cases found : Statement.echoed place pieces with
  | error fault =>
      rw [found] at ran
      cases ran
      rfl
  | ok expression =>
      rw [found] at ran
      change (evaluate expression >>= fun value => do
        modify fun session => { session with output := session.output.writeLine value.text }
        return value) session = some (outcome, next) at ran
      rw [Except.toOption, Option.bind_some]
      rcases ended_of_bind ran with ⟨fault, ended, _⟩ | ⟨value, middle, ended, written⟩
      · obtain ⟨⟨result, calls⟩, evaluated, same⟩ := Option.map_eq_some_iff.mp ended
        cases same
        rw [evaluated]
        rfl
      · obtain ⟨⟨result, calls⟩, evaluated, same⟩ := Option.map_eq_some_iff.mp ended
        cases same
        cases written
        rw [evaluated]
        rfl

/-- A statement writes what it echoes and nothing else. -/
theorem of_tree_writes {outcome : Except Fault (Option Value)}
    (ran : ofTree tree session = some (outcome, next)) :
    next.output = session.output.writeValues (session.echoed? tree).toList := by
  by_cases isEcho : tree.production = .echo
  · obtain ⟨_, pieces, place⟩ := tree
    cases isEcho
    change (some <$> echo place pieces) session = some (outcome, next) at ran
    obtain ⟨_, ended, _⟩ := ended_of_map ran
    exact echo_writes ended
  · have none_ : tree.echoed? = none := by
      unfold Tree.echoed?
      split
      · exact absurd rfl isEcho
      · rfl
    rw [Session.echoed?, none_, of_tree_quiet isEcho _ _ _ ran]
    rfl

theorem executed_cons_of_ok {rest : List Tree} {value? : Option Value}
    (ran : ofTree tree session = some (.ok value?, next)) :
    executed (tree :: rest) session = (session, tree) :: executed rest next := by
  rw [executed, ran]

theorem executed_cons_of_error {rest : List Tree} {fault : Fault}
    (ran : ofTree tree session = some (.error fault, next)) :
    executed (tree :: rest) session = [(session, tree)] := by
  rw [executed, ran]

theorem echoes_cons (tree : Tree) (trees : List Tree) (session : Session)
    (later : List (Session × Tree))
    (ran : executed (tree :: trees) session = (session, tree) :: later) :
    echoes (tree :: trees) session =
      (session.echoed? tree).toList ++ later.filterMap fun found => found.1.echoed? found.2 := by
  rw [echoes, ran, List.filterMap_cons]
  dsimp only
  cases session.echoed? tree <;> rfl

end Execution

namespace Output

theorem write_values_append (output : Output) (first second : List Value) :
    output.writeValues (first ++ second) = (output.writeValues first).writeValues second :=
  List.foldl_append

theorem kept_write_values (text : String) (values : List Value) :
    (kept text).writeValues values = .kept (text ++ lines values) := by
  induction values generalizing text with
  | nil =>
      rw [writeValues, List.foldl_nil, lines, List.map_nil, String.join_nil, String.append_empty]
  | cons value values induction =>
      have first : (kept text).writeValues (value :: values) =
          (kept (text ++ value.text ++ "\n")).writeValues values := rfl
      rw [first, induction, lines, lines, List.map_cons, String.join_cons, String.append_assoc,
        String.append_assoc, String.append_assoc]

end Output

namespace Execution

variable {session next : Session}

/-- Statements write what those of them echo that are executed. -/
theorem of_trees_writes {last : Option Value} {trees : List Tree}
    {outcome : Except Fault (Option Value)}
    (ran : ofTrees last trees session = some (outcome, next)) :
    next.output = session.output.writeValues (echoes trees session) := by
  induction trees generalizing last session with
  | nil =>
      cases ran
      rfl
  | cons tree trees induction =>
      rw [ofTrees] at ran
      rcases ended_of_bind ran with ⟨fault, ended, _⟩ | ⟨value?, middle, ended, continued⟩
      · rw [echoes_cons _ _ _ _ (executed_cons_of_error ended), of_tree_writes ended]
        rw [List.filterMap_nil, List.append_nil]
      · rw [echoes_cons _ _ _ _ (executed_cons_of_ok ended), Output.write_values_append,
          ← of_tree_writes ended]
        exact induction continued

/-- A statement that succeeds has a value unless it is silent. -/
theorem of_tree_value {tree : Tree} {value? : Option Value}
    (ran : ofTree tree session = some (.ok value?, next)) :
    if tree.isSilent then value? = none else ∃ value, value? = some value := by
  have mapped : ∀ execution : Execution Value,
      (some <$> execution) session = some (.ok value?, next) → ∃ value, value? = some value := by
    intro execution ran
    obtain ⟨inner, _, same⟩ := ended_of_map ran
    cases inner with
    | error fault => cases same
    | ok value => exact ⟨value, Except.ok.inj same⟩
  rw [ofTree] at ran
  rw [Tree.isSilent]
  cases produced : tree.production with simp only [produced] at ran
  | newline =>
      cases ran
      rfl
  | callableDefine =>
      obtain ⟨_, middle, _, continued⟩ := bind_eq_ok_iff.mp ran
      cases continued
      rfl
  | parameters => cases ran
  | signature => cases ran
  | arguments => cases ran
  | _ => exact mapped _ ran

/-- What a program comes to is the value of its last statement that is not silent. -/
theorem of_trees_value {trees : List Tree} {last value? : Option Value}
    (ran : ofTrees last trees session = some (.ok value?, next)) :
    (value? = last ∧ ∀ tree ∈ trees, tree.isSilent = true) ∨
    ∃ before tree after middle later value, trees = before ++ tree :: after ∧
      tree.isSilent = false ∧ (∀ other ∈ after, other.isSilent = true) ∧
      (∃ earlier, ofTrees last before session = some (.ok earlier, middle)) ∧
      ofTree tree middle = some (.ok (some value), later) ∧ value? = some value := by
  induction trees generalizing last session with
  | nil =>
      cases ran
      exact .inl ⟨rfl, fun _ member => nomatch member⟩
  | cons tree trees induction =>
      rw [ofTrees] at ran
      obtain ⟨first?, middle, ended, continued⟩ := bind_eq_ok_iff.mp ran
      rcases induction continued with ⟨same, silent⟩ |
        ⟨before, found, after, between, later, value, split, counts, silent, ⟨earlier, reached⟩,
          has, same⟩
      · have valued := of_tree_value ended
        split at valued
        · next isSilent =>
            subst valued
            exact .inl ⟨same, List.forall_mem_cons.mpr ⟨isSilent, silent⟩⟩
        · next counts =>
            obtain ⟨value, rfl⟩ := valued
            exact .inr ⟨[], tree, trees, session, middle, value, rfl,
              Bool.eq_false_iff.mpr counts, silent, ⟨last, rfl⟩, ended, same⟩
      · refine .inr ⟨tree :: before, found, after, between, later, value, by rw [split]; rfl,
          counts, silent, ⟨earlier, ?_⟩, has, same⟩
        rw [ofTrees]
        exact bind_eq_ok_iff.mpr ⟨first?, middle, ended, reached⟩

end Execution

namespace Output

theorem lines_append (first second : List Value) :
    lines (first ++ second) = lines first ++ lines second := by
  rw [lines, lines, lines, List.map_append, String.join_append]

/-- There are as many lines as there are values. -/
theorem count_newline_lines (values : List Value) :
    (lines values).toList.count '\n' = values.length := by
  induction values with
  | nil => rfl
  | cons value values induction =>
      have first : lines (value :: values) = value.text ++ "\n" ++ lines values := by
        rw [lines, List.map_cons, String.join_cons]
        rfl
      have newline : "\n".toList = ['\n'] := rfl
      rw [first, String.toList_append, String.toList_append, List.count_append, List.count_append,
        induction, List.count_eq_zero_of_not_mem value.no_newline_in_text, newline,
        List.count_singleton_self, List.length_cons]
      omega

end Output

namespace Session

variable {session next : Session} {values : List Value}

/-- Every action keeps the output the lines of what is logged. -/
theorem perform_logs {action : Action} (ran : session.perform action = some next)
    (kept : session.output = .kept (Output.lines values)) :
    next.output = .kept (Output.lines (session.log values action)) := by
  have executes : ∀ trees, (session.execute trees).map Prod.snd = some next →
      next.output = .kept (Output.lines (values ++ Execution.echoes trees session)) := by
    intro trees ran
    obtain ⟨⟨outcome, _⟩, executed, rfl⟩ := Option.map_eq_some_iff.mp ran
    rw [Execution.of_trees_writes executed, kept, Output.kept_write_values, Output.lines_append]
  cases action with
  | run source =>
      rw [perform, run] at ran
      rw [log]
      cases read : parse source with
      | error error =>
          rw [read] at ran
          cases ran
          exact kept
      | ok trees =>
          rw [read] at ran
          refine executes trees ?_
          rw [← ran, Option.map_map]
          rfl
  | execute trees => exact executes trees ran
  | clear =>
      cases ran
      rw [clearOutput, kept]
      rfl

theorem follow_logs {actions : List Action} {logged : List Value}
    (ran : session.follow values actions = some (next, logged))
    (kept : session.output = .kept (Output.lines values)) :
    next.output = .kept (Output.lines logged) := by
  induction actions generalizing session values with
  | nil =>
      cases ran
      exact kept
  | cons action actions induction =>
      rw [follow] at ran
      cases performed : session.perform action with
      | none =>
          rw [performed] at ran
          cases ran
      | some middle =>
          rw [performed] at ran
          exact induction ran (perform_logs performed kept)

/-- Under a limit every action ends, and the limit stays. -/
theorem perform_ends {limit : Nat} (limited : session.calls.limit? = some limit)
    (action : Action) :
    ∃ next, session.perform action = some next ∧ next.calls.limit? = some limit := by
  have executes : ∀ trees, ∃ next, (session.execute trees).map Prod.snd = some next ∧
      next.calls.limit? = some limit := by
    intro trees
    obtain ⟨outcome, next, executed⟩ := Execution.of_trees_end none trees limited
    refine ⟨next, ?_, (congrArg Calls.limit? (Execution.of_trees_calls executed)).trans limited⟩
    rw [execute, executed]
    rfl
  cases action with
  | run source =>
      rw [perform, run]
      cases parse source with
      | error error => exact ⟨session, rfl, limited⟩
      | ok trees =>
          obtain ⟨next, executed, kept⟩ := executes trees
          refine ⟨next, ?_, kept⟩
          rw [← executed, Option.map_map]
          rfl
  | execute trees => exact executes trees
  | clear => exact ⟨session.clearOutput, rfl, limited⟩

theorem follow_ends {limit : Nat} (limited : session.calls.limit? = some limit)
    (values : List Value) (actions : List Action) :
    (session.follow values actions).isSome = true := by
  induction actions generalizing session values with
  | nil => rfl
  | cons action actions induction =>
      obtain ⟨next, performed, kept⟩ := perform_ends limited action
      rw [follow, performed]
      exact induction kept _

/-- Whatever is run and executed in a session that keeps its output, failures included, the output
is the text of the echoed values since it was last cleared, in their order and each with a newline
behind it. No value has a newline in its text, so that there are as many lines as echoes that had a
value. A program that succeeds comes to the value of its last statement that is no newline and no
definition of a callable, and to none if there is no such statement. -/
theorem output_is_echoed_lines (scope : Scope) (limit? : Option Nat) (actions : List Action) :
    (∀ session values, (start scope limit? .empty).follow [] actions = some (session, values) →
      session.output = .kept (Output.lines values) ∧
      (∀ value ∈ values, '\n' ∉ value.text.toList) ∧
      session.output.text.toList.count '\n' = values.length) ∧
    (limit?.isSome = true → ((start scope limit? .empty).follow [] actions).isSome = true) ∧
    ∀ (session next : Session) trees value?, session.execute trees = some (.ok value?, next) →
      (value? = none ∧ ∀ tree ∈ trees, tree.isSilent = true) ∨
      ∃ before tree after middle later value, trees = before ++ tree :: after ∧
        tree.isSilent = false ∧ (∀ other ∈ after, other.isSilent = true) ∧
        (∃ earlier, session.execute before = some (.ok earlier, middle)) ∧
        Execution.ofTree tree middle = some (.ok (some value), later) ∧ value? = some value := by
  refine ⟨?_, ?_, ?_⟩
  · intro session values ran
    have output : session.output = .kept (Output.lines values) := follow_logs ran rfl
    refine ⟨output, fun value _ => value.no_newline_in_text, ?_⟩
    rw [output]
    exact Output.count_newline_lines values
  · intro limited
    obtain ⟨limit, rfl⟩ := Option.isSome_iff_exists.mp limited
    exact follow_ends rfl [] actions
  · intro session next trees value? ran
    exact Execution.of_trees_value ran

/-- Programs of which one is cleared away, one fails at an echo, one cannot be read, and one ends in
a newline. -/
theorem failing_echo_is_not_written :
    ∃ session values, (start .empty (some 8) .empty).follow [] [.run "echo 1", .clear,
        .run "x: = 2\necho x * 1.5\necho x / 0\necho 9", .run "echo (", .run "echo x\n"] =
        some (session, values) ∧
      values.map Value.text = ["3.0", "2"] ∧
      session.output = .kept (Output.lines values) ∧
      session.output.text.toList.count '\n' = 2 := by
  have check : (((start .empty (some 8) .empty).follow [] [.run "echo 1", .clear,
      .run "x: = 2\necho x * 1.5\necho x / 0\necho 9", .run "echo (", .run "echo x\n"]).any
        fun ended => ended.2.map Value.text = ["3.0", "2"]) = true := by decide +kernel
  obtain ⟨⟨session, values⟩, followed, same⟩ := (Option.any_eq_true _ _).mp check
  have texts : values.map Value.text = ["3.0", "2"] := of_decide_eq_true same
  have two : values.length = 2 := (List.length_map _).symm.trans (congrArg List.length texts)
  obtain ⟨written, _⟩ := output_is_echoed_lines .empty (some 8) _
  obtain ⟨output, _, count⟩ := written session values followed
  exact ⟨session, values, followed, texts, output, count.trans two⟩

end Session

end Reckon
