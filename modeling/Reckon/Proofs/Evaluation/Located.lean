import Reckon.Proofs.Evaluation.Limits

/-!
Where an evaluation may fail. The rules locate a fault at a tree they look at, and a call locates
its refusal at the call. So every fault has the location of a node: of the tree evaluated, or of the
body of a callable in the scope. Nothing is asked of the trees.
-/

namespace Reckon

/-- A node of the tree, or of the body of a callable in the scope. -/
inductive Scope.Sees (scope : Scope) (tree node : Tree) : Prop where
  | own (part : node.PartOf tree)
  | body {name : String} {callable : Callable} (found : scope.callable? name = some callable)
      (part : node.PartOf callable.body)

/-- The fault has the span and the position of one of the nodes. -/
def Fault.IsAt (nodes : Tree → Prop) (fault : Fault) : Prop :=
  ∃ node, nodes node ∧ fault.location? = some node.location

/-- The location of one of the nodes. -/
def Location.OfNode (nodes : Tree → Prop) (location : Location) : Prop :=
  ∃ node, nodes node ∧ location = node.location

theorem Fault.is_at_of_raised {nodes : Tree → Prop} {fault : Fault}
    (raised : fault.RaisedAmong (Location.OfNode nodes)) : fault.IsAt nodes := by
  obtain ⟨_, ⟨node, among, rfl⟩, located⟩ := raised.located
  exact ⟨node, among, located⟩

theorem Fault.IsAt.imp {nodes others : Tree → Prop} {fault : Fault} (isAt : fault.IsAt nodes)
    (implied : ∀ node, nodes node → others node) : fault.IsAt others := by
  obtain ⟨node, among, located⟩ := isAt
  exact ⟨node, implied node among, located⟩

/-- What the body of a callable sees is seen from wherever the callable is called, its parameters
bound or not. -/
theorem Scope.Sees.of_bind {scope : Scope} {bindings : List (String × Value)} {name : String}
    {callable : Callable} {tree node : Tree} (found : scope.callable? name = some callable)
    (sees : (scope.bind bindings).Sees callable.body node) : scope.Sees tree node := by
  cases sees with
  | own part => exact .body found part
  | body inside part => exact .body (callable_of_bind inside) part

namespace Evaluation

/-- Every fault is located at a node that is seen. -/
theorem within_located (depth : Nat) (scope : Scope) (tree : Tree) :
    Ends (fun _ => True) (within depth scope tree) (fun _ => True)
      (Fault.IsAt (scope.Sees tree)) := by
  -- on the depth: a body is evaluated one less deep, and what it sees is seen from the call
  induction depth generalizing scope tree with
  | zero =>
      intro calls outcome next kept ran
      cases ran
  | succ depth induction =>
      have raised : ∀ fault : Fault, fault.RaisedAmong (Location.OfNode (scope.Sees tree)) →
          fault.IsAt (scope.Sees tree) := fun _ => Fault.is_at_of_raised
      rw [within_succ]
      apply of_tree_holds (ends_congruent raised)
      · exact fun inner part => ⟨inner, .own part, rfl⟩
      · intro name place callable called found converted ends
        apply during_ends
        · exact fun _ kept => kept
        · exact fun _ kept => kept
        · have here : Location.OfNode (scope.Sees tree) callable.body.location :=
            ⟨callable.body, .body found .whole, rfl⟩
          apply enter_converted_holds (ends_congruent raised) here ends
          intro bindings
          apply (induction (scope.bind bindings) callable.body).weaken
          exact fun fault isAt => isAt.imp fun _ => Scope.Sees.of_bind found
        · intro calls limit _ _
          obtain ⟨callee, rest, part, _⟩ := called
          exact ⟨_, .own part, rfl⟩
        · exact fun _ _ isAt => isAt

theorem evaluate_located {scope : Scope} {tree : Tree} {calls next : Calls} {fault : Fault}
    (failed : tree.evaluate scope calls = some (.error fault, next)) :
    fault.IsAt (scope.Sees tree) :=
  (within_located _ scope tree calls _ next trivial failed).2.2 fault rfl

end Evaluation

end Reckon
