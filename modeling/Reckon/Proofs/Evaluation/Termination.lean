import Reckon.Proofs.Evaluation.Nesting

/-!
Evaluation under a limit comes to an end. It goes to a smaller tree with the calls under way as they
are, or to the body of a callable with one call less admitted, and it needs nothing else to be what
it is. So it always has an outcome, and the depth to which calls are followed makes no difference.
-/

namespace Reckon

namespace Evaluation

variable {calls : Calls}

/-- That an evaluation has an outcome and leaves the calls as they were is kept by putting
evaluations together. -/
theorem ended_congruent (calls : Calls) (places : Location → Prop) :
    Congruent (fun evaluation _ => ∃ outcome, evaluation calls = some (outcome, calls)) places where
  pure result := ⟨.ok result, rfl⟩
  throw {_ fault} _ := ⟨.error fault, rfl⟩
  bind := by
    intro α β left _ leftRest _ first rest
    obtain ⟨outcome, ended⟩ := first
    rw [bind_apply, ended]
    cases outcome with
    | error fault => exact ⟨.error fault, rfl⟩
    | ok result => exact rest result

theorem during_ends_of_room {call : Call} {body : Evaluation Value}
    (inner : calls.HasRoom →
      ∃ outcome, body (calls.inside call) = some (outcome, calls.inside call)) :
    ∃ outcome, during call body calls = some (outcome, calls) := by
  rcases calls.push_cases call with room | ⟨limit, _, _, full⟩
  · obtain ⟨outcome, ended⟩ := inner room
    rw [during_of_room room, ended]
    exact ⟨_, rfl⟩
  · exact ⟨_, during_of_refused full⟩

/-- An evaluation that follows calls as deep as the limit admits comes to an end. -/
theorem within_ends {limit depth : Nat} {scope : Scope} {tree : Tree}
    (limited : calls.limit? = some limit) (deep : limit - calls.depth < depth) :
    ∃ outcome, within depth scope tree calls = some (outcome, calls) := by
  induction depth generalizing scope tree calls with
  | zero => exact absurd deep (Nat.not_lt_zero _)
  | succ depth induction =>
      apply of_tree_holds (ended_congruent calls fun _ => True) fun _ _ => trivial
      intro name place callable called found converted ends
      apply during_ends_of_room
      intro room
      apply enter_converted_holds (ended_congruent _ fun _ => True) trivial ends
      intro bindings
      apply induction
      · exact limited
      · have admitted := room limit limited
        rw [Calls.inside_depth]
        omega

theorem allowance_of_limit {limit : Nat} {scope : Scope} (limited : calls.limit? = some limit) :
    allowance scope calls = limit - calls.depth + 1 := by
  rw [allowance, limited]

/-- Under a limit every tree has an outcome, whatever the bodies of the callables call. -/
theorem evaluate_ends {limit : Nat} {scope : Scope} {tree : Tree}
    (limited : calls.limit? = some limit) :
    ∃ outcome, tree.evaluate scope calls = some (outcome, calls) := by
  apply within_ends limited
  rw [allowance_of_limit limited]
  exact Nat.lt_succ_self _

/-- What a tree does by its production, where it is given what the trees and the bodies do that it
goes on to. -/
def step (evaluate : Scope → Tree → Evaluation Value) (scope : Scope) (tree : Tree) :
    Evaluation Value :=
  reduce scope.names (fun callable bindings => evaluate (scope.bind bindings) callable.body) tree
    (tree.pieces.map (.map fun inner => ⟨inner, evaluate scope inner⟩))
    ((Tree.argumentPieces tree.pieces).map (.map fun inner => ⟨inner, evaluate scope inner⟩))

end Evaluation

/-- A scope with one callable, which calls itself. -/
def Scope.endless : Scope :=
  .defineCallable .empty ⟨"f", .int, [], .bareCall "f" .unknown, .start⟩

/-- How many more calls the limit admits. -/
def Calls.admitted (calls : Calls) : Nat := (calls.limit?.getD 0) - calls.depth

theorem Calls.admitted_of_room {calls : Calls} {limit : Nat} {call : Call}
    (limited : calls.limit? = some limit) (room : calls.HasRoom) :
    (calls.inside call).admitted + 1 = calls.admitted := by
  have admitted := room limit limited
  rw [Calls.admitted, Calls.admitted, Calls.inside_limit, Calls.inside_depth, limited]
  change limit - (calls.depth + 1) + 1 = limit - calls.depth
  omega

/-- A tree to evaluate in a scope, with the calls under way. -/
structure Task where
  scope : Scope
  tree : Tree
  calls : Calls

namespace Task

/-- A task goes on to the trees inside its own with the calls as they are, and to the bodies of
callables with one call less admitted. -/
inductive GoesOnTo : Task → Task → Prop where
  | inside {scope : Scope} {tree piece inner : Tree} {calls : Calls}
      (member : .tree piece ∈ tree.pieces) (part : inner.PartOf piece) :
      GoesOnTo ⟨scope, tree, calls⟩ ⟨scope, inner, calls⟩
  | body {scope : Scope} {tree : Tree} {calls : Calls} {name : String} {place : Location}
      {callable : Callable} {bindings : List (String × Value)} (called : tree.CallsAt name place)
      (found : scope.callable? name = some callable)
      (fewer : (calls.inside ⟨name, place⟩).admitted + 1 = calls.admitted) :
      GoesOnTo ⟨scope, tree, calls⟩
        ⟨scope.bind bindings, callable.body, calls.inside ⟨name, place⟩⟩

theorem size_of_piece {piece tree : Tree} (member : .tree piece ∈ tree.pieces) :
    sizeOf piece < sizeOf tree := by
  obtain ⟨production, pieces, location⟩ := tree
  have smaller : sizeOf (Piece.tree piece) < sizeOf pieces := List.sizeOf_lt_of_mem member
  rw [Piece.tree.sizeOf_spec] at smaller
  rw [Tree.node.sizeOf_spec]
  omega

theorem size_of_part {inner tree : Tree} (part : inner.PartOf tree) :
    sizeOf inner ≤ sizeOf tree := by
  induction part with
  | whole => exact Nat.le_refl _
  | inside member _ induction =>
      exact Nat.le_of_lt (Nat.lt_of_le_of_lt induction (size_of_piece member))

/-- Tasks cannot go on to tasks for ever: fewer calls are admitted, or as many and the tree is
smaller. -/
theorem goes_on_to_well_founded : WellFounded fun inner outer : Task => outer.GoesOnTo inner := by
  apply Subrelation.wf (r := InvImage (Prod.Lex (· < ·) (· < ·)) fun task : Task =>
    (task.calls.admitted, sizeOf task.tree))
  · intro inner outer leads
    cases leads with
    | inside member part =>
        exact .right _ (Nat.lt_of_le_of_lt (size_of_part part) (size_of_piece member))
    | body called found fewer =>
        apply Prod.Lex.left
        exact Nat.lt_of_succ_le (Nat.le_of_eq fewer)
  · exact InvImage.wf _ (Prod.lex Nat.lt_wfRel Nat.lt_wfRel).wf

end Task

namespace Evaluation

variable {calls : Calls}

/-- What a tree comes to carries over to one step, if what the tasks come to that it goes on to
carries over to what the step is given for them. -/
theorem step_carries_over {limit depth : Nat} {scope : Scope} {tree : Tree}
    {other : Scope → Tree → Evaluation Value} (limited : calls.limit? = some limit)
    (inside : ∀ inner, Task.GoesOnTo ⟨scope, tree, calls⟩ ⟨scope, inner, calls⟩ →
      CarriesOver (fun _ => False) calls calls (within (depth + 1) scope inner) (other scope inner))
    (body : ∀ (bindings : List (String × Value)) (callable : Callable) (call : Call),
      Task.GoesOnTo ⟨scope, tree, calls⟩
        ⟨scope.bind bindings, callable.body, calls.inside call⟩ → calls.HasRoom →
      CarriesOver (fun _ => False) (calls.inside call) (calls.inside call)
        (within depth (scope.bind bindings) callable.body)
        (other (scope.bind bindings) callable.body)) :
    CarriesOver (fun _ => False) calls calls (within (depth + 1) scope tree)
      (step other scope tree) := by
  rw [within_succ, of_tree_eq_reduce]
  apply reduce_related (carries_over_congruent (fun _ => False) calls calls fun _ => True) trivial
  · exact fun _ _ => trivial
  · exact fun _ _ => trivial
  · apply mapped_related
    intro inner member
    exact inside inner (.inside member .whole)
  · apply mapped_related
    intro inner member
    obtain ⟨list, listed, given⟩ := Tree.argument_pieces_inside member
    obtain ⟨_, groups, _⟩ := list
    exact inside inner (.inside listed (.inside given .whole))
  · intro produced callee rest name callable same named found converted ends
    apply carries_over_during (fun _ _ => id) rfl (.inr rfl) id
    intro room
    apply enter_converted_related (carries_over_congruent _ _ _ fun _ => True) trivial ends
    intro bindings
    have called := calls_at_of_call produced same named
    exact body bindings callable _ (.body called found (Calls.admitted_of_room limited room)) room

/-- Evaluation of a task under a limit is one step, for which nothing is needed but the tasks it
goes on to. -/
theorem step_eq_evaluate {limit : Nat} {scope : Scope} {tree : Tree}
    {other : Scope → Tree → Evaluation Value} (limited : calls.limit? = some limit)
    (agrees : ∀ task, Task.GoesOnTo ⟨scope, tree, calls⟩ task →
      other task.scope task.tree task.calls = task.tree.evaluate task.scope task.calls) :
    step other scope tree calls = tree.evaluate scope calls := by
  have carried : CarriesOver (fun _ => False) calls calls
      (within (limit - calls.depth + 1) scope tree) (step other scope tree) := by
    apply step_carries_over limited
    · intro inner goesOn outcome next ran
      have kept := within_restores ran
      subst kept
      rw [agrees _ goesOn, Tree.evaluate, allowance_of_limit limited]
      exact ⟨rfl, .inr ran⟩
    · intro bindings callable call goesOn room outcome next ran
      have kept := within_restores ran
      subst kept
      have admitted := room limit limited
      -- the allowance of the body is what is left of that of the tree
      have fewer : limit - (calls.inside call).depth + 1 = limit - calls.depth := by
        rw [Calls.inside_depth]
        omega
      have limitedInside : (calls.inside call).limit? = some limit := limited
      rw [agrees _ goesOn, Tree.evaluate, allowance_of_limit limitedInside, fewer]
      exact ⟨rfl, .inr ran⟩
  obtain ⟨outcome, ended⟩ := evaluate_ends limited
  rw [Tree.evaluate, allowance_of_limit limited] at ended ⊢
  obtain ⟨_, ⟨_, _, never⟩ | same⟩ := carried outcome calls ended
  · exact never.elim
  · rw [same, ended]

end Evaluation

end Reckon
