import Reckon.Proofs.Evaluation.Faults

/-!
Two branches that guard against what cannot happen: an argument without a parameter once the names
have been compared, and a variable that is gone once its next value is known. What stands in them
makes no difference to what a call or an assignment does.
-/

namespace Reckon

namespace Argument

/-- The conversion of values, with the outcome for an argument that has no parameter left open. -/
def convertAllOr (fallback : Argument → Except Fault (List (String × Value)))
    (callable : Callable) : List (Argument × Value) → Except Fault (List (String × Value))
  | [] => .ok []
  | (argument, value) :: rest =>
      match callable.parameter? argument.name with
      | none => fallback argument
      | some parameter => do
          let converted ← located argument.value.tree.location (value.convert parameter.kind)
          let others ← convertAllOr fallback callable rest
          return (argument.name, converted) :: others

theorem convert_all_or (fallback : Argument → Except Fault (List (String × Value)))
    (callable : Callable) {pairs : List (Argument × Value)}
    (declared : ∀ pair ∈ pairs, (callable.parameter? pair.1.name).isSome = true) :
    convertAll callable pairs = convertAllOr fallback callable pairs := by
  induction pairs with
  | nil => rfl
  | cons pair pairs induction =>
      obtain ⟨argument, value⟩ := pair
      obtain ⟨parameter, found⟩ := Option.isSome_iff_exists.mp (declared _ (List.mem_cons_self ..))
      simp only at found
      unfold convertAll convertAllOr
      simp only [found, induction fun other member => declared other (by simp [member])]

end Argument

namespace Evaluation

/-- A call, with the outcome for an argument that has no parameter left open. -/
def callOr (fallback : Argument → Except Fault (List (String × Value))) (names : Names)
    (enter : Callable → List (String × Value) → Evaluation Value) (location : Location)
    (pieces given : List (Piece Operand)) : Evaluation Value := do
  let (name, arguments) ← ofExcept (callParts location given pieces)
  let callable ← ofExcept (callee names name location)
  ofExcept (Argument.check callable arguments location)
  let values ← Argument.evaluateAll arguments
  during ⟨name, location⟩ (do
    let bindings ← ofExcept (Argument.convertAllOr fallback callable values)
    let value ← enter callable bindings
    ofExcept (located callable.body.location (value.convert callable.returns)))

/-- No call gets to an argument without a parameter. -/
theorem call_eq_call_or (fallback : Argument → Except Fault (List (String × Value))) :
    call = callOr fallback := by
  funext names enter location pieces given calls
  unfold call callOr
  refine Ends.bind_congr Ends.of_any trivial fun parts calls _ _ => ?_
  obtain ⟨name, arguments⟩ := parts
  refine Ends.bind_congr Ends.of_any trivial fun callable calls _ _ => ?_
  have checked : Ends (fun _ => True) (ofExcept (Argument.check callable arguments location))
      (fun _ => ∀ argument ∈ arguments, (callable.parameter? argument.name).isSome = true)
      (fun _ => True) := .ofExcept (Argument.check_ends fun _ _ => trivial)
  refine Ends.bind_congr checked trivial fun _ calls declared _ => ?_
  refine Ends.bind_congr (Argument.evaluate_all_ends fun _ _ => Ends.of_any) trivial
    fun pairs calls same _ => ?_
  have converted := Argument.convert_all_or fallback callable fun pair member =>
    declared pair.1 (by rw [← same]; exact List.mem_map_of_mem member)
  unfold invoke
  rw [converted]

end Evaluation

namespace Execution

/-- An assignment, with what is done where the variable is gone left open. -/
def assignOr (fallback : Statement.Assignment → Execution Value) (location : Location)
    (pieces : List (Piece Tree)) : Execution Value := do
  let assignment ← ofExcept (Statement.Assignment.ofPieces location pieces)
  let scope := (← get).scope
  match scope.value? assignment.name with
  | none => throw (unassignable scope assignment.name location)
  | some current => do
      let computed ← evaluate assignment.value
      let value ← ofExcept (located assignment.value.location (computed.convert current.kind))
      match (← get).scope.assign assignment.name value with
      | .ok scope => do
          setScope scope
          return value
      | .error _ => fallback assignment

theorem evaluate_keeps_scope (tree : Tree) (scope : Scope) :
    Ends (fun session : Session => session.scope = scope) (evaluate tree) (fun _ => True)
      (fun _ => True) := by
  intro session outcome next kept ran
  obtain ⟨⟨result, calls⟩, _, same⟩ := Option.map_eq_some_iff.mp ran
  cases same
  exact ⟨kept, fun _ _ => trivial, fun _ _ => trivial⟩

/-- No assignment finds the variable gone. -/
theorem assign_eq_assign_or (fallback : Statement.Assignment → Execution Value) :
    assign = assignOr fallback := by
  funext location pieces session
  unfold assign assignOr
  have toldEnds {α : Type} (keeps : Session → Prop) (outcome : Except Fault α) :
      Ends keeps (ofExcept outcome) (fun _ => True) (fun _ => True) := .told .of_any
  have getEnds (keeps : Session → Prop) :
      Ends keeps (get : Execution Session) keeps (fun _ => True) := .get
  refine Ends.bind_congr (toldEnds (· = session) _) rfl fun assignment _ _ kept => ?_
  refine Ends.bind_congr (getEnds (· = session)) kept fun got after same kept => ?_
  obtain rfl : after = got := kept.trans same.symm
  cases found : after.scope.value? assignment.name with
  | none => rfl
  | some current =>
      refine Ends.bind_congr (evaluate_keeps_scope _ after.scope) rfl fun computed _ _ kept => ?_
      refine Ends.bind_congr (toldEnds (·.scope = after.scope) _) kept fun value _ _ kept => ?_
      refine Ends.bind_congr (getEnds (·.scope = after.scope)) kept fun later _ same _ => ?_
      rw [← same] at found
      obtain ⟨next, assigned, _⟩ := Scope.assign_of_value found value
      rw [assigned]

end Execution

end Reckon
