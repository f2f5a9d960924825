import Reckon.Proofs.Evaluation.Kinds
import Reckon.Proofs.Session.Effects

/-!
What statements do to the names of a scope. A definition and an assignment name the one thing they
bind, and nothing else changes, whatever is called on the way and whatever the parameters are
called: those are bound in scopes of their own. An assignment keeps the kind of its variable, and a
definition gives the kind it declares or the value as it is.
-/

namespace Reckon

/-- Definitions and assignments bind a name. -/
def Production.binds : Production → Bool
  | .varDefine | .varAssign | .callableDefine => true
  | _ => false

/-- The name that a definition or an assignment binds. -/
def Tree.target? (tree : Tree) : Option String :=
  if tree.production.binds then (tree.pieces.head?.bind Piece.tree?).bind Tree.name? else none

namespace Statement

/-- The pieces are those of the definition: `name : kind = value`, or without a kind. -/
inductive Definition.Written : Definition → List (Piece Tree) → Prop where
  | declared {target declared value : Tree} {name : String} {kind : Kind}
      (named : target.name? = some name) (known : declared.name?.bind Kind.ofName? = some kind) :
      Written ⟨name, some kind, value⟩
        [.tree target, .token ":", .tree declared, .token "=", .tree value]
  | inferred {target value : Tree} {name : String} (named : target.name? = some name) :
      Written ⟨name, none, value⟩ [.tree target, .token ":", .token "=", .tree value]

/-- The pieces are those of the assignment: `name = value`. -/
inductive Assignment.Written : Assignment → List (Piece Tree) → Prop where
  | assigned {target value : Tree} {name : String} (named : target.name? = some name) :
      Written ⟨name, value⟩ [.tree target, .token "=", .tree value]

theorem Definition.Written.target {definition : Definition} {tree : Tree}
    (written : definition.Written tree.pieces) (produced : tree.production = .varDefine) :
    tree.target? = some definition.name := by
  rw [Tree.target?, produced, Production.binds, if_pos rfl]
  generalize tree.pieces = pieces at written
  cases written with
  | declared named known => exact named
  | inferred named => exact named

theorem Assignment.Written.target {assignment : Assignment} {tree : Tree}
    (written : assignment.Written tree.pieces) (produced : tree.production = .varAssign) :
    tree.target? = some assignment.name := by
  rw [Tree.target?, produced, Production.binds, if_pos rfl]
  generalize tree.pieces = pieces at written
  cases written with
  | assigned named => exact named

/-- The name stands for the value and for nothing else, and the value is of the kind declared or
what the expression came to before. -/
structure Definition.Binds (definition : Definition) (value : Value) (session : Session)
    (scope : Scope) : Prop where
  bound : scope.value? definition.name = some value
  alone : scope.callable? definition.name = none
  declared : ∀ kind, definition.kind? = some kind → value.kind = kind
  inferred : definition.kind? = none →
    definition.value.evaluate session.scope session.calls = some (.ok value, session.calls)

/-- The name stands for the value, and stood for one of the same kind. -/
structure Assignment.Binds (assignment : Assignment) (value : Value) (session : Session)
    (scope : Scope) : Prop where
  bound : scope.value? assignment.name = some value
  kept : (session.scope.value? assignment.name).map Value.kind = some value.kind

/-- The value that a definition binds, of the value that its expression has. -/
def Definition.convert (definition : Definition) (computed : Value) : Except Fault Value :=
  match definition.kind? with
  | some kind => computed.convert kind
  | none => .ok computed

variable {construct : Production} {location : Location} {expected : String}

theorem name_found (piece : Piece Tree) : EndsPure (nameOf construct location expected piece)
    (fun name => ∃ tree, piece = .tree tree ∧ tree.name? = some name) (fun _ => True) := by
  unfold nameOf
  split
  · next name found =>
      cases piece with
      | token text => cases found
      | tree tree => exact .ok ⟨tree, rfl, found⟩
  · exact .error trivial

theorem kind_found (piece : Piece Tree) : EndsPure (kindOf construct location piece)
    (fun kind => ∃ tree, piece = .tree tree ∧ tree.name?.bind Kind.ofName? = some kind)
    (fun _ => True) := by
  apply (name_found piece).bind
  rintro name ⟨tree, rfl, named⟩
  split
  · next kind known =>
      refine .ok ⟨tree, rfl, ?_⟩
      rw [named]
      exact known
  · exact .error trivial

theorem tree_of_filter {piece : Piece Tree} {production : Production} {tree : Tree}
    (found : piece.tree?.filter (·.production == production) = some tree) :
    piece = .tree tree ∧ tree.production = production := by
  obtain ⟨same, fits⟩ := Option.filter_eq_some_iff.mp found
  cases piece with
  | token text => cases same
  | tree inner =>
      cases same
      exact ⟨rfl, beq_iff_eq.mp fits⟩

theorem expression_found (piece : Piece Tree) : EndsPure (expressionOf construct location piece)
    (fun tree => piece = .tree tree ∧ tree.production = .expr) (fun _ => True) := by
  unfold expressionOf
  split
  · next tree found => exact .ok (tree_of_filter found)
  · exact .error trivial

theorem definition_written (pieces : List (Piece Tree)) :
    EndsPure (Definition.ofPieces location pieces)
      (fun definition => definition.Written pieces ∧ definition.value.production = .expr)
      (fun _ => True) := by
  unfold Definition.ofPieces
  split
  · split
    · next marked =>
        obtain ⟨colon, equals⟩ := Bool.and_eq_true_iff.mp marked
        obtain rfl := Piece.eq_token_of_is_token colon
        obtain rfl := Piece.eq_token_of_is_token equals
        apply (name_found _).bind
        rintro name ⟨target, rfl, named⟩
        apply (kind_found _).bind
        rintro kind ⟨declared, rfl, known⟩
        apply (expression_found _).bind
        rintro value ⟨rfl, fits⟩
        exact .ok ⟨.declared named known, fits⟩
    · exact .error trivial
  · split
    · next marked =>
        obtain ⟨colon, equals⟩ := Bool.and_eq_true_iff.mp marked
        obtain rfl := Piece.eq_token_of_is_token colon
        obtain rfl := Piece.eq_token_of_is_token equals
        apply (name_found _).bind
        rintro name ⟨target, rfl, named⟩
        apply (expression_found _).bind
        rintro value ⟨rfl, fits⟩
        exact .ok ⟨.inferred named, fits⟩
    · exact .error trivial
  · exact .error trivial

theorem assignment_written (pieces : List (Piece Tree)) :
    EndsPure (Assignment.ofPieces location pieces)
      (fun assignment => assignment.Written pieces ∧ assignment.value.production = .expr)
      (fun _ => True) := by
  unfold Assignment.ofPieces
  split
  · split
    · next equals =>
        obtain rfl := Piece.eq_token_of_is_token equals
        apply (name_found _).bind
        rintro name ⟨target, rfl, named⟩
        apply (expression_found _).bind
        rintro value ⟨rfl, fits⟩
        exact .ok ⟨.assigned named, fits⟩
    · exact .error trivial
  · exact .error trivial

/-- The first piece of the definition of a callable is its name. -/
theorem callable_named (pieces : List (Piece Tree)) :
    EndsPure (callable location pieces)
      (fun callable => (pieces.head?.bind Piece.tree?).bind Tree.name? = some callable.name)
      (fun _ => True) := by
  unfold callable
  split
  · split
    · apply (name_found _).bind
      rintro name ⟨target, rfl, named⟩
      split
      · apply EndsPure.of_any.bind
        intro parts _
        dsimp only
        split
        · exact .ok named
        · exact .error trivial
      · exact .error trivial
    · exact .error trivial
  · exact .error trivial

end Statement

namespace Execution

variable {α β : Type} {session next : Session} {tree : Tree}

theorem ok_of_bind {execution : Execution α} {rest : α → Execution β} {result : β}
    (ran : (execution >>= rest) session = some (.ok result, next)) :
    ∃ first middle, execution session = some (.ok first, middle) ∧
      rest first middle = some (.ok result, next) :=
  bind_eq_ok_iff.mp ran

theorem ok_of_map {execution : Execution α} {function : α → β} {result : β}
    (ran : (function <$> execution) session = some (.ok result, next)) :
    ∃ first, execution session = some (.ok first, next) ∧ function first = result := by
  obtain ⟨inner, ended, same⟩ := ended_of_map ran
  cases inner with
  | error fault => cases same
  | ok first => exact ⟨first, ended, (Except.ok.inj same).symm⟩

theorem ok_of_told {outcome : Except Fault α} {rest : α → Execution β} {result : β}
    (ran : (ofExcept outcome >>= rest) session = some (.ok result, next)) :
    ∃ first, outcome = .ok first ∧ rest first session = some (.ok result, next) := by
  cases outcome with
  | error fault => cases ran
  | ok first => exact ⟨first, rfl, ran⟩

theorem ok_of_evaluate {rest : Value → Execution β} {result : β}
    (ran : (evaluate tree >>= rest) session = some (.ok result, next)) :
    ∃ value, tree.evaluate session.scope session.calls = some (.ok value, session.calls) ∧
      rest value session = some (.ok result, next) := by
  obtain ⟨value, middle, evaluated, continued⟩ := ok_of_bind ran
  have kept := (only_looks_evaluate tree).kept _ _ _ evaluated
  obtain ⟨⟨outcome, calls⟩, found, same⟩ := Option.map_eq_some_iff.mp evaluated
  obtain rfl := Evaluation.within_restores found
  obtain ⟨rfl, _⟩ := Prod.mk.inj same
  rw [kept] at continued
  exact ⟨value, found, continued⟩

/-- What a statement that succeeds makes of the scope, with the value it has. -/
inductive Effect (tree : Tree) (session : Session) : Option Value → Scope → Prop where
  | leaves {result : Option Value} (idle : tree.production.binds = false) :
      Effect tree session result session.scope
  | defines {definition : Statement.Definition} {computed value : Value}
      (produced : tree.production = .varDefine) (written : definition.Written tree.pieces)
      (evaluated : definition.value.evaluate session.scope session.calls =
        some (.ok computed, session.calls))
      (converted : definition.convert computed = .ok value) :
      Effect tree session (some value) (session.scope.defineVariable definition.name value)
  | assigns {assignment : Statement.Assignment} {current value : Value} {scope : Scope}
      (produced : tree.production = .varAssign) (written : assignment.Written tree.pieces)
      (bound : session.scope.value? assignment.name = some current)
      (kept : value.kind = current.kind)
      (assigned : session.scope.assign assignment.name value = .ok scope) :
      Effect tree session (some value) scope
  | definesCallable {callable : Callable} (produced : tree.production = .callableDefine)
      (named : tree.target? = some callable.name) :
      Effect tree session none (session.scope.defineCallable callable)

theorem located_ok {location : Location} {outcome : Except Fault α} {result : α}
    (same : located location outcome = .ok result) : outcome = .ok result := by
  cases outcome with
  | error fault => cases same
  | ok first => exact same

theorem define_effect {value : Value} (produced : tree.production = .varDefine)
    (ran : define tree.location tree.pieces session = some (.ok value, next)) :
    Effect tree session (some value) next.scope := by
  obtain ⟨definition, found, ran⟩ := ok_of_told ran
  obtain ⟨computed, evaluated, ran⟩ := ok_of_evaluate ran
  have written := ((Statement.definition_written tree.pieces).returned definition found).1
  have stored : ∃ value', definition.convert computed = .ok value' ∧ value' = value ∧
      next.scope = session.scope.defineVariable definition.name value' := by
    rw [Statement.Definition.convert]
    cases declared : definition.kind? with
    | none =>
        rw [declared] at ran
        cases ran
        exact ⟨_, rfl, rfl, rfl⟩
    | some kind =>
        rw [declared] at ran
        obtain ⟨converted, same, ran⟩ := ok_of_told ran
        cases ran
        exact ⟨_, located_ok same, rfl, rfl⟩
  obtain ⟨_, converted, rfl, scope⟩ := stored
  rw [scope]
  exact .defines produced written evaluated converted

theorem assign_effect {value : Value} (produced : tree.production = .varAssign)
    (ran : assign tree.location tree.pieces session = some (.ok value, next)) :
    Effect tree session (some value) next.scope := by
  obtain ⟨assignment, found, ran⟩ := ok_of_told ran
  have written := ((Statement.assignment_written tree.pieces).returned assignment found).1
  obtain ⟨looked, middle, same, ran⟩ := ok_of_bind ran
  cases same
  cases bound : session.scope.value? assignment.name with
  | none =>
      simp only [bound] at ran
      cases ran
  | some current =>
      simp only [bound] at ran
      obtain ⟨computed, _, ran⟩ := ok_of_evaluate ran
      obtain ⟨converted, same, ran⟩ := ok_of_told ran
      obtain ⟨looked, middle, same', ran⟩ := ok_of_bind ran
      cases same'
      cases assigned : session.scope.assign assignment.name converted with
      | error refused =>
          simp only [assigned] at ran
          cases ran
      | ok scope =>
          simp only [assigned] at ran
          cases ran
          exact .assigns produced written bound (Value.kind_of_convert (located_ok same)) assigned

theorem define_callable_effect (produced : tree.production = .callableDefine)
    (ran : defineCallable tree.location tree.pieces session = some (.ok (), next)) :
    Effect tree session none next.scope := by
  obtain ⟨callable, found, ran⟩ := ok_of_told ran
  have named := (Statement.callable_named tree.pieces).returned callable found
  cases ran
  apply Effect.definesCallable produced
  rw [Tree.target?, produced, Production.binds, if_pos rfl]
  exact named

theorem echo_scope {location : Location} {pieces : List (Piece Tree)} {value : Value}
    (ran : echo location pieces session = some (.ok value, next)) :
    next.scope = session.scope := by
  obtain ⟨inner, _, ran⟩ := ok_of_told ran
  obtain ⟨computed, _, ran⟩ := ok_of_evaluate ran
  cases ran
  rfl

/-- Every statement that succeeds binds what it names, or it binds nothing. -/
theorem of_tree_effect {result : Option Value}
    (ran : ofTree tree session = some (.ok result, next)) :
    Effect tree session result next.scope := by
  have evaluates (ran : (some <$> evaluate tree) session = some (.ok result, next))
      (idle : tree.production.binds = false) : Effect tree session result next.scope := by
    obtain ⟨value, ended, _⟩ := ok_of_map ran
    obtain rfl := (only_looks_evaluate tree).kept _ _ _ ended
    exact .leaves idle
  rw [ofTree] at ran
  cases produced : tree.production with simp only [produced] at ran
  | newline =>
      cases ran
      exact .leaves (congrArg Production.binds produced)
  | varDefine =>
      obtain ⟨value, ended, rfl⟩ := ok_of_map ran
      exact define_effect produced ended
  | varAssign =>
      obtain ⟨value, ended, rfl⟩ := ok_of_map ran
      exact assign_effect produced ended
  | echo =>
      obtain ⟨value, ended, rfl⟩ := ok_of_map ran
      rw [echo_scope ended]
      exact .leaves (congrArg Production.binds produced)
  | callableDefine =>
      obtain ⟨_, middle, ended, ran⟩ := ok_of_bind ran
      cases ran
      exact define_callable_effect produced ended
  | parameters => cases ran
  | signature => cases ran
  | arguments => cases ran
  | expr => exact evaluates ran (congrArg Production.binds produced)
  | term => exact evaluates ran (congrArg Production.binds produced)
  | factor => exact evaluates ran (congrArg Production.binds produced)
  | atom => exact evaluates ran (congrArg Production.binds produced)
  | call => exact evaluates ran (congrArg Production.binds produced)
  | intLiteral => exact evaluates ran (congrArg Production.binds produced)
  | numLiteral => exact evaluates ran (congrArg Production.binds produced)
  | identifier => exact evaluates ran (congrArg Production.binds produced)

section

variable {name : String} {result : Option Value} {scope : Scope}

/-- Whatever is bound, another name stands for what it stood for. -/
theorem Effect.keeps (effect : Effect tree session result scope)
    (other : tree.target? ≠ some name) :
    scope.value? name = session.scope.value? name ∧
      scope.callable? name = session.scope.callable? name := by
  cases effect with
  | leaves idle => exact ⟨rfl, rfl⟩
  | @defines definition _ value produced written _ _ =>
      have differs : definition.name ≠ name := by
        rintro rfl
        exact other (written.target produced)
      exact ⟨Scope.define_variable_value?.trans (if_neg differs),
        Scope.define_variable_callable?.trans (if_neg differs)⟩
  | @assigns assignment _ value _ produced written _ _ assigned =>
      have differs : assignment.name ≠ name := by
        rintro rfl
        exact other (written.target produced)
      exact ⟨(Scope.assign_value? assigned).trans (if_neg differs),
        Scope.assign_callable? assigned⟩
  | @definesCallable callable produced named =>
      have differs : callable.name ≠ name := by
        rintro rfl
        exact other named
      exact ⟨Scope.define_callable_value?.trans (if_neg differs),
        Scope.define_callable_callable?.trans (if_neg differs)⟩

/-- A name that is at most assigned to stands for a value of the kind it stood for. -/
theorem Effect.keeps_kind (effect : Effect tree session result scope)
    (assigned : tree.target? = some name → tree.production = .varAssign) :
    (scope.value? name).map Value.kind = (session.scope.value? name).map Value.kind ∧
      scope.callable? name = session.scope.callable? name := by
  by_cases targeted : tree.target? = some name
  · have produced := assigned targeted
    cases effect with
    | leaves idle => cases idle.symm.trans (congrArg Production.binds produced)
    | defines defined => cases defined.symm.trans produced
    | definesCallable defined => cases defined.symm.trans produced
    | assigns _ written bound kept stored =>
        cases (written.target produced).symm.trans targeted
        refine ⟨?_, Scope.assign_callable? stored⟩
        rw [Scope.assign_value? stored, if_pos rfl, bound]
        exact congrArg some kept
  · obtain ⟨value, callable⟩ := effect.keeps targeted
    exact ⟨congrArg (Option.map Value.kind) value, callable⟩

/-- A definition of a variable binds the value it has. -/
theorem Effect.binds_definition (effect : Effect tree session result scope)
    (produced : tree.production = .varDefine) :
    ∃ (definition : Statement.Definition) (value : Value), definition.Written tree.pieces ∧
      result = some value ∧ definition.Binds value session scope := by
  cases effect with
  | leaves idle => cases idle.symm.trans (congrArg Production.binds produced)
  | assigns assigned => cases assigned.symm.trans produced
  | definesCallable defined => cases defined.symm.trans produced
  | @defines definition computed value _ written evaluated converted =>
      refine ⟨definition, value, written, rfl, ?_, ?_, ?_, ?_⟩
      · rw [Scope.define_variable_value?, if_pos rfl]
      · rw [Scope.define_variable_callable?, if_pos rfl]
      · intro kind declared
        rw [Statement.Definition.convert, declared] at converted
        exact Value.kind_of_convert converted
      · intro inferred
        rw [Statement.Definition.convert, inferred] at converted
        cases converted
        exact evaluated

/-- An assignment binds the value it has, of the kind that its variable has. -/
theorem Effect.binds_assignment (effect : Effect tree session result scope)
    (produced : tree.production = .varAssign) :
    ∃ (assignment : Statement.Assignment) (value : Value), assignment.Written tree.pieces ∧
      result = some value ∧ assignment.Binds value session scope := by
  cases effect with
  | leaves idle => cases idle.symm.trans (congrArg Production.binds produced)
  | defines defined => cases defined.symm.trans produced
  | definesCallable defined => cases defined.symm.trans produced
  | @assigns assignment current value _ _ written bound kept assigned =>
      refine ⟨assignment, value, written, rfl, ?_, ?_⟩
      · rw [Scope.assign_value? assigned, if_pos rfl]
      · rw [bound, Option.map_some, kept]

end

/-- What every one of the statements keeps where it succeeds, they keep one after the other, also
where one of them fails. -/
theorem of_trees_keep (view : Scope → α) {trees : List Tree} {last : Option Value}
    {outcome : Except Fault (Option Value)}
    (keeps : ∀ tree ∈ trees, ∀ session result scope, Effect tree session result scope →
      view scope = view session.scope)
    (ran : ofTrees last trees session = some (outcome, next)) :
    view next.scope = view session.scope := by
  induction trees generalizing last session with
  | nil =>
      cases ran
      rfl
  | cons tree trees induction =>
      rw [ofTrees] at ran
      rcases ended_of_bind ran with ⟨fault, failed, _⟩ | ⟨result, middle, ended, continued⟩
      · rw [(of_tree_changes_last tree).traceless _ _ _ failed]
      · have onwards := induction
          (fun other member => keeps other (List.mem_cons_of_mem tree member)) continued
        have first := keeps tree (List.mem_cons_self ..) session result middle.scope
          (of_tree_effect ended)
        exact onwards.trans first

/-- Whatever the calls on the way bind, and wherever statements stop, a name that none of them names
stands for what it stood for, and one that they only assign to stands for a value of the kind it
stood for, or for no value as before. A definition that succeeds has the value that its name stands
for then, which is of the kind declared, or the value of its expression; an assignment that succeeds
has the value that its variable has then. -/
theorem statements_bind_what_they_name :
    (∀ (trees : List Tree) (session next : Session) (outcome : Except Fault (Option Value)),
      session.execute trees = some (outcome, next) → ∀ name,
        ((∀ tree ∈ trees, tree.target? ≠ some name) →
          next.scope.value? name = session.scope.value? name ∧
          next.scope.callable? name = session.scope.callable? name) ∧
        ((∀ tree ∈ trees, tree.target? = some name → tree.production = .varAssign) →
          (next.scope.value? name).map Value.kind = (session.scope.value? name).map Value.kind ∧
          next.scope.callable? name = session.scope.callable? name)) ∧
    (∀ (tree : Tree) (session next : Session) (result : Option Value),
      ofTree tree session = some (.ok result, next) →
        (tree.production = .varDefine → ∃ (definition : Statement.Definition) (value : Value),
          definition.Written tree.pieces ∧ result = some value ∧
          definition.Binds value session next.scope) ∧
        (tree.production = .varAssign → ∃ (assignment : Statement.Assignment) (value : Value),
          assignment.Written tree.pieces ∧ result = some value ∧
          assignment.Binds value session next.scope)) := by
  constructor
  · intro trees session next outcome ran name
    constructor
    · intro others
      have kept := of_trees_keep (fun scope => (scope.value? name, scope.callable? name))
        (fun tree member _ _ _ effect => by
          obtain ⟨value, callable⟩ := effect.keeps (others tree member)
          rw [value, callable]) ran
      exact Prod.mk.inj kept
    · intro assigned
      have kept := of_trees_keep
        (fun scope => ((scope.value? name).map Value.kind, scope.callable? name))
        (fun tree member _ _ _ effect => by
          obtain ⟨kind, callable⟩ := effect.keeps_kind (assigned tree member)
          rw [kind, callable]) ran
      exact Prod.mk.inj kept
  · intro tree session next result ran
    have effect := of_tree_effect ran
    exact ⟨effect.binds_definition, effect.binds_assignment⟩

/-- A session with two variables. -/
def twoVariables : Session :=
  .start ((Scope.empty.defineVariable "x" (.int 1)).defineVariable "y" (.int 2)) (some 8) .empty

/-- The call binds a parameter that is called like a variable, its value is converted where it is
assigned, and the last statement fails. -/
theorem shadowed_name_stays_bound :
    ∃ trees tree fault next result last,
      parse "f: int (x: int) = x + y\ny = f(x = 5) + 0.5\ny = x / 0" = .ok trees ∧
      twoVariables.execute trees = some (.error fault, next) ∧
      (next.scope.value? "x" = twoVariables.scope.value? "x" ∧
        next.scope.callable? "x" = twoVariables.scope.callable? "x") ∧
      ((next.scope.value? "y").map Value.kind = (twoVariables.scope.value? "y").map Value.kind ∧
        next.scope.callable? "y" = twoVariables.scope.callable? "y") ∧
      (next.scope.value? "y").map Value.text = some "7" ∧
      parse "z: num = y" = .ok [tree] ∧ ofTree tree next = some (.ok result, last) ∧
      ∃ (definition : Statement.Definition) (value : Value),
        definition.Written tree.pieces ∧ result = some value ∧
        definition.Binds value next last.scope := by
  obtain ⟨trees, read⟩ : ∃ trees,
      parse "f: int (x: int) = x + y\ny = f(x = 5) + 0.5\ny = x / 0" = .ok trees := ⟨_, rfl⟩
  obtain ⟨tree, defined, produced⟩ : ∃ tree,
      parse "z: num = y" = .ok [tree] ∧ tree.production = .varDefine := ⟨_, rfl, rfl⟩
  have targets : (parse "f: int (x: int) = x + y\ny = f(x = 5) + 0.5\ny = x / 0").toOption.any
      (fun trees => trees.all fun tree => tree.target? ≠ some "x" ∧
        (tree.target? = some "y" → tree.production = .varAssign)) = true := by decide +kernel
  have endings : ((parse "f: int (x: int) = x + y\ny = f(x = 5) + 0.5\ny = x / 0").toOption.bind
      fun trees => (parse "z: num = y").toOption.bind fun definitions =>
        (twoVariables.execute trees).bind fun stopped =>
          (definitions.head?.bind (ofTree · stopped.2)).map fun ended => (stopped, ended)).any
      (fun ran => !ran.1.1.toBool && ran.2.1.toBool &&
        (ran.1.2.scope.value? "y").map Value.text == some "7") = true := by decide +kernel
  rw [read] at targets endings
  rw [defined] at endings
  have others := List.all_eq_true.mp targets
  simp only [decide_eq_true_eq] at others
  change ((twoVariables.execute trees).bind fun stopped =>
    (ofTree tree stopped.2).map fun ended => (stopped, ended)).any _ = true at endings
  obtain ⟨⟨⟨outcome, next⟩, result, last⟩, ran, ended⟩ := (Option.any_eq_true _ _).mp endings
  obtain ⟨_, executed, ran⟩ := Option.bind_eq_some_iff.mp ran
  obtain ⟨_, bound, same⟩ := Option.map_eq_some_iff.mp ran
  cases same
  simp only [Bool.and_eq_true, beq_iff_eq] at ended
  obtain ⟨⟨failed, succeeded⟩, seven⟩ := ended
  cases outcome with
  | ok value? => cases failed
  | error fault =>
      cases result with
      | error fault => cases succeeded
      | ok result =>
          have bindings := statements_bind_what_they_name.1 trees twoVariables next _ executed
          have binds := (statements_bind_what_they_name.2 tree next last result bound).1 produced
          exact ⟨trees, tree, fault, next, result, last, read, executed,
            (bindings "x").1 fun tree member => (others tree member).1,
            (bindings "y").2 fun tree member => (others tree member).2,
            seven, defined, bound, binds⟩

end Execution

end Reckon
