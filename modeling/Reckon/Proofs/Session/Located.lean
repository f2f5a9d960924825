import Reckon.Proofs.Evaluation.Located
import Reckon.Proofs.Grammar.Extents
import Reckon.Proofs.Grammar.Positions
import Reckon.Proofs.Session.Parallel
import Reckon.Proofs.Session.Restarts

/-!
Where the faults of a session are. A statement fails at a node of its own, or in a call at a node of
a body that the scope holds. Bodies come from the trees that were executed. If these are nodes of
one program that was read, so are all nodes that a fault can be at, and what a fault says of its
place is what the line table of that program says.
-/

namespace Reckon

/-- The fault is located at one of the places. -/
def Fault.IsAmong (places : Location → Prop) (fault : Fault) : Prop :=
  ∃ place, places place ∧ fault.location? = some place

/-- All nodes of the bodies of callables in the scope are at the places. -/
def Scope.BodiesAmong (places : Location → Prop) (scope : Scope) : Prop :=
  ∀ name callable, scope.callable? name = some callable →
    ∀ inner : Tree, inner.PartOf callable.body → places inner.location

/-- A node of one of the trees. -/
def Tree.NodeOf (forest : List Tree) (node : Tree) : Prop := ∃ tree ∈ forest, node.PartOf tree

/-- The fault is located in the source: its span is that of a piece of the source, its position is
the one that the line table has for the start of its span, and its message and the first line under
the heading of its report end with this position. -/
structure Fault.PointsInto (source : String) (fault : Fault) (location : Location) : Prop where
  located : fault.location? = some location
  forward : location.span.start ≤ location.span.stop
  inside : location.span.stop ≤ Text.byteSize source.toList
  slice : ∃ text, Text.slice? location.span.start location.span.stop source.toList = some text
  position : location.position = (Lines.ofString source).position location.span.start
  text : fault.text = fault.cause.message ++ " at " ++ location.position.text
  reported : ∃ width, (fault.report.lines (.ofString source))[1]? =
    some (List.replicate width ' ' ++ "--> ".toList ++ location.position.text.toList)

theorem Fault.among_of_is_at {nodes : Tree → Prop} {places : Location → Prop} {fault : Fault}
    (isAt : fault.IsAt nodes) (here : ∀ node, nodes node → places node.location) :
    fault.IsAmong places := by
  obtain ⟨node, seen, located⟩ := isAt
  exact ⟨node.location, here node seen, located⟩

namespace Scope

variable {places : Location → Prop} {scope : Scope}

theorem BodiesAmong.sees (bodies : scope.BodiesAmong places) {tree node : Tree}
    (within : ∀ inner : Tree, inner.PartOf tree → places inner.location)
    (sees : scope.Sees tree node) : places node.location := by
  cases sees with
  | own part => exact within node part
  | body found part => exact bodies _ _ found node part

theorem BodiesAmong.define_variable (bodies : scope.BodiesAmong places) (name : String)
    (value : Value) : (scope.defineVariable name value).BodiesAmong places :=
  fun other callable found => bodies other callable (callable_of_define_variable found)

theorem BodiesAmong.assign (bodies : scope.BodiesAmong places) {name : String} {value : Value}
    {next : Scope} (assigned : scope.assign name value = .ok next) : next.BodiesAmong places :=
  fun other callable found => bodies other callable (callable_of_assign assigned found)

theorem BodiesAmong.define_callable (bodies : scope.BodiesAmong places) {callable : Callable}
    (body : ∀ inner : Tree, inner.PartOf callable.body → places inner.location) :
    (scope.defineCallable callable).BodiesAmong places := by
  intro other known found
  rcases callable_of_define_callable found with rfl | before
  · exact body
  · exact bodies other known before

end Scope

namespace Execution

variable {places : Location → Prop}

/-- A session whose bodies are at the places goes on as one of this kind, and fails at the places
only. -/
theorem sessions_parallel_among (places : Location → Prop) :
    SessionsParallel (Location.SameAmong places)
      (fun fault other => fault = other ∧ fault.IsAmong places)
      (fun session other => session = other ∧ session.scope.BodiesAmong places) where
  raised beside := by
    obtain ⟨same, raised⟩ := Fault.raised_beside_iff.mp beside
    exact ⟨same, raised.located⟩
  values kept name := by rw [kept.1]
  callables kept name := by rw [kept.1]
  evaluate {tree other} beside := by
    have within := Tree.places_of_beside beside
    obtain rfl := Tree.eq_of_beside (Tree.beside_imp (fun _ _ same => same.1) beside)
    rintro session _ ⟨rfl, bodies⟩
    rw [evaluate]
    cases ran : tree.evaluate session.scope session.calls with
    | none => exact .none
    | some ended =>
        obtain ⟨fault | value, calls⟩ := ended
        · have isAt := Evaluation.evaluate_located ran
          have among := Fault.among_of_is_at isAt fun _ => bodies.sees within
          exact .some (.error ⟨rfl, among⟩ ⟨rfl, bodies⟩)
        · exact .some (.ok rfl ⟨rfl, bodies⟩)
  defineVariable kept name value := by
    obtain ⟨rfl, bodies⟩ := kept
    exact ⟨rfl, bodies.define_variable name value⟩
  assign kept _ _ _ _ assigned assigned' := by
    obtain ⟨rfl, bodies⟩ := kept
    cases assigned.symm.trans assigned'
    exact ⟨rfl, bodies.assign assigned⟩
  defineCallable kept _ _ callable callable' _ callables := by
    obtain ⟨rfl, bodies⟩ := kept
    obtain rfl := Callable.eq_of_beside (Callable.beside_imp (fun _ _ same => same.1) callables)
    exact ⟨rfl, bodies.define_callable (Tree.places_of_beside callables.body)⟩
  writeLine kept line := by
    obtain ⟨rfl, bodies⟩ := kept
    exact ⟨rfl, bodies⟩

theorem beside_itself_among {tree : Tree}
    (within : ∀ inner : Tree, inner.PartOf tree → places inner.location) :
    tree.Beside (Location.SameAmong places) tree :=
  Tree.beside_itself fun inner part => ⟨rfl, within inner part⟩

theorem of_tree_located {tree : Tree}
    (within : ∀ inner : Tree, inner.PartOf tree → places inner.location) :
    Ends (fun session => session.scope.BodiesAmong places) (ofTree tree) (fun _ => True)
      (Fault.IsAmong places) :=
  (of_tree_alike (sessions_parallel_among places) (beside_itself_among within)).ends

theorem of_trees_located {trees : List Tree}
    (within : ∀ tree ∈ trees, ∀ inner : Tree, inner.PartOf tree → places inner.location)
    (last : Option Value) :
    Ends (fun session => session.scope.BodiesAmong places) (ofTrees last trees) (fun _ => True)
      (Fault.IsAmong places) := by
  have beside : List.Forall₂ (Tree.Beside (Location.SameAmong places)) trees trees :=
    List.forall₂_same.mpr fun tree member => beside_itself_among (within tree member)
  exact (of_trees_alike (sessions_parallel_among places) beside last).ends

/-- The statement that fails does so at a node that it sees. -/
theorem of_tree_fails_at {tree : Tree} {session next : Session} {fault : Fault}
    (failed : ofTree tree session = some (.error fault, next)) :
    fault.IsAt (session.scope.Sees tree) := by
  have within : ∀ inner : Tree, inner.PartOf tree →
      Location.OfNode (session.scope.Sees tree) inner.location :=
    fun inner part => ⟨inner, .own part, rfl⟩
  have bodies : session.scope.BodiesAmong (Location.OfNode (session.scope.Sees tree)) :=
    fun _ _ found inner part => ⟨inner, .body found part, rfl⟩
  obtain ⟨place, ⟨node, sees, rfl⟩, located⟩ :=
    (of_tree_located within session _ next bodies failed).2.2 fault rfl
  exact ⟨node, sees, located⟩

end Execution

/-- A node of a program that was read is at a piece of the source, and begins where a token does
that is not the end of input. -/
theorem holds_of_node {source : String} {forest : List Tree} {node : Tree}
    (parsed : parse source = .ok forest) (among : node.NodeOf forest) :
    node.location.span.start < Span.maxOffset ∧
      ∃ text, node.location.Holds source.toList text := by
  obtain ⟨body, stop, scanned, _, covered⟩ := covered_of_parse parsed
  obtain ⟨placed, ascending⟩ := tokens_placed scanned
  obtain ⟨tree, member, part⟩ := among
  obtain ⟨before, own, after, split, _, spans⟩ :=
    (stands_of_covered scanned covered tree member node part).own
  have inside : ∀ token ∈ own ++ after, token ∈ body := by
    intro token among
    rw [split, List.append_assoc]
    exact List.mem_append_right _ among
  constructor
  · obtain ⟨token, among, starts, _⟩ := spans.starts
    rw [starts]
    exact (proper_before scanned token (inside token among)).early scanned
      (List.mem_append_left _ (inside token among))
  · rw [split] at ascending
    refine spans.holds (fun token among => placed token ?_) (ascending.left.left.right before)
    exact List.mem_append_left _ (inside token among)

namespace Fault

/-- A fault at a piece of the source points into the source. -/
theorem points_into {source : String} {fault : Fault} {location : Location} {text : List Char}
    (located : fault.location? = some location) (holds : location.Holds source.toList text)
    (early : location.span.start < Span.maxOffset) : fault.PointsInto source location := by
  have position := (holds.position_of_lt early).symm
  refine ⟨located, holds.forward, holds.inside, ⟨text, holds.slice⟩, position, ?_, ?_⟩
  · rw [Fault.text, located]
    rfl
  · rw [report, located, Report.lines, position]
    exact ⟨_, rfl⟩

end Fault

namespace Session

variable {session next : Session}

theorem after_bodies {places : Location → Prop} {programs : List (List Tree)}
    (within : ∀ trees ∈ programs, ∀ tree ∈ trees, ∀ inner : Tree, inner.PartOf tree →
      places inner.location)
    (bodies : session.scope.BodiesAmong places) (ran : session.after programs = some next) :
    next.scope.BodiesAmong places := by
  induction programs generalizing session with
  | nil =>
      cases ran
      exact bodies
  | cons trees programs induction =>
      obtain ⟨middle, ended, continued⟩ := Option.bind_eq_some_iff.mp ran
      obtain ⟨⟨outcome, _⟩, executed, rfl⟩ := Option.map_eq_some_iff.mp ended
      refine induction (fun trees member => within trees (by simp [member])) ?_ continued
      exact (Execution.of_trees_located (within trees (by simp)) none _ _ _ bodies executed).1

/-- Every fault of an evaluation, whatever is evaluated in whatever scope, has the span and the
position of one node of the tree or of the body of a callable in the scope; and every fault of a
program has those of such a node of the statement that fails, in the scope which that statement
finds. If a session has executed nothing but nodes of one program that was read, the span is that
of a piece of its source, the position is the one that the line table has for the start of the span,
and the message and the report of the fault name this position. -/
theorem faults_are_at_nodes :
    (∀ scope (tree : Tree) calls fault next,
      tree.evaluate scope calls = some (.error fault, next) → fault.IsAt (scope.Sees tree)) ∧
    (∀ session trees fault final, execute trees session = some (.error fault, final) →
      ∃ before failing after, trees = before ++ failing :: after ∧
        (∃ value?, execute before session = some (.ok value?, final)) ∧
        fault.IsAt (final.scope.Sees failing)) ∧
    ∀ source forest, parse source = .ok forest → ∀ scope limit? output programs session,
      (∀ name, scope.callable? name = none) →
      (∀ trees ∈ programs, ∀ tree ∈ trees, tree.NodeOf forest) →
      (start scope limit? output).after programs = some session →
      (∀ (tree : Tree) fault calls, tree.NodeOf forest →
        tree.evaluate session.scope session.calls = some (.error fault, calls) →
        ∃ location, fault.PointsInto source location) ∧
      ∀ trees fault final, (∀ tree ∈ trees, tree.NodeOf forest) →
        execute trees session = some (.error fault, final) →
        ∃ location, fault.PointsInto source location := by
  refine ⟨fun _ _ _ _ _ failed => Evaluation.evaluate_located failed, ?_, ?_⟩
  · intro session trees fault final failed
    obtain ⟨before, failing, after, split, ran, stopped, _⟩ := Execution.failing_among failed
    exact ⟨before, failing, after, split, ran, Execution.of_tree_fails_at stopped⟩
  · intro source forest parsed scope limit? output programs session uncalled nodes ran
    have within : ∀ tree : Tree, tree.NodeOf forest → ∀ inner : Tree, inner.PartOf tree →
        Location.OfNode (Tree.NodeOf forest) inner.location := by
      rintro tree ⟨root, member, part⟩ inner inside
      exact ⟨inner, ⟨root, member, inside.trans part⟩, rfl⟩
    have nothing : (start scope limit? output).scope.BodiesAmong
        (Location.OfNode (Tree.NodeOf forest)) := by
      intro name callable found
      exact nomatch (uncalled name).symm.trans found
    have bodies := after_bodies
      (fun trees member tree among => within tree (nodes trees member tree among)) nothing ran
    have points : ∀ fault : Fault, fault.IsAmong (Location.OfNode (Tree.NodeOf forest)) →
        ∃ location, fault.PointsInto source location := by
      rintro fault ⟨_, ⟨node, among, rfl⟩, located⟩
      obtain ⟨early, text, holds⟩ := holds_of_node parsed among
      exact ⟨node.location, Fault.points_into located holds early⟩
    constructor
    · intro tree fault calls among failed
      have isAt := Evaluation.evaluate_located failed
      exact points fault (Fault.among_of_is_at isAt fun _ => bodies.sees (within tree among))
    · intro trees fault final among failed
      have located := Execution.of_trees_located
        (fun tree member => within tree (among tree member)) none
      exact points fault ((located session _ final bodies failed).2.2 fault rfl)

/-- The place of the fault that a program ended with. -/
def faultPlace? : Option (Except Fault (Option Value) × Session) → Option Location
  | some (.error fault, _) => fault.location?
  | some (.ok _, _) => none
  | none => none

/-- A division by zero in the body of a callable, behind a comment with a character of two bytes.
The session has failed there before. -/
theorem failing_body_is_pointed_at :
    ∃ forest session fault final, parse "## é ##\nf: int(n: int) = 1 / n\nf(n = 0)" = .ok forest ∧
      (start .empty (some 8) .empty).after [forest] = some session ∧
      execute forest session = some (.error fault, final) ∧
      fault.PointsInto "## é ##\nf: int(n: int) = 1 / n\nf(n = 0)" ⟨⟨26, 31⟩, ⟨2, 18⟩⟩ ∧
      ∃ before failing after, forest = before ++ failing :: after ∧
        (∃ value?, execute before session = some (.ok value?, final)) ∧
        fault.IsAt (final.scope.Sees failing) := by
  obtain ⟨forest, parsed, check⟩ : ∃ forest,
      parse "## é ##\nf: int(n: int) = 1 / n\nf(n = 0)" = .ok forest ∧
      (((start .empty (some 8) .empty).after [forest]).any fun session =>
        faultPlace? (execute forest session) = some ⟨⟨26, 31⟩, ⟨2, 18⟩⟩) = true := by
    refine ⟨_, rfl, ?_⟩
    decide +kernel
  obtain ⟨session, ran, check⟩ := (Option.any_eq_true _ _).mp check
  have place := of_decide_eq_true check
  have nodes : ∀ tree ∈ forest, tree.NodeOf forest := fun tree member => ⟨tree, member, .whole⟩
  have executed : ∀ trees ∈ [forest], ∀ tree ∈ trees, tree.NodeOf forest := by
    intro trees member
    rw [List.mem_singleton.mp member]
    exact nodes
  obtain ⟨_, statements, sources⟩ := faults_are_at_nodes
  obtain ⟨_, points⟩ := sources _ forest parsed .empty (some 8) .empty [forest] session
    (fun _ => Scope.empty_callable?) executed ran
  cases ended : execute forest session with
  | none =>
      rw [ended] at place
      cases place
  | some result =>
      obtain ⟨fault | value?, final⟩ := result
      · rw [ended] at place
        obtain ⟨location, pointed⟩ := points forest fault final nodes ended
        cases pointed.located.symm.trans place
        exact ⟨forest, session, fault, final, parsed, ran, ended, pointed,
          statements session forest fault final ended⟩
      · rw [ended] at place
        cases place

end Session

end Reckon
