import Reckon.Proofs.Evaluation.Locations

/-!
Which call a fault says it happened in. An evaluation closes every call that a fault leaves, and
tells of a call only if no other is under way behind it. Beside it stands an evaluation that leaves
the calls open: a fault ends it as it was raised, with the calls under way as they were then. The
note is that of the outermost of these calls, and there is none if there are no such calls.
-/

namespace Reckon

namespace Evaluation

/-- An evaluation while one more call is under way. A fault is left as it was raised, and so are the
calls that were under way then. -/
def openDuring (call : Call) (body : Evaluation Value) : Evaluation Value := fun calls =>
  match calls.push call with
  | .error fault => some (.error fault, calls)
  | .ok inside =>
      match body inside with
      | none => none
      | some (.error fault, left) => some (.error fault, left)
      | some (.ok value, left) => some (.ok value, left.pop)

/-- A call, whose arguments are evaluated before it begins. -/
def openCall (names : Names) (enter : Callable → List (String × Value) → Evaluation Value)
    (location : Location) (pieces given : List (Piece Operand)) : Evaluation Value := do
  let (name, arguments) ← ofExcept (callParts location given pieces)
  let callable ← ofExcept (callee names name location)
  ofExcept (Argument.check callable arguments location)
  let values ← Argument.evaluateAll arguments
  openDuring ⟨name, location⟩ (invoke enter callable values)

def openReduce (names : Names) (enter : Callable → List (String × Value) → Evaluation Value)
    (tree : Tree) (pieces given : List (Piece Operand)) : Evaluation Value :=
  if tree.production = .call then openCall names enter tree.location pieces given
  else reduce names enter tree pieces given

mutual

/-- What a tree does, where a fault leaves the calls under way open. -/
def openTree (names : Names) (enter : Callable → List (String × Value) → Evaluation Value) :
    Tree → Evaluation Value
  | .node production pieces location =>
      openReduce names enter (.node production pieces location) (openOperands names enter pieces)
        (openGiven names enter pieces)
termination_by structural tree => tree

def openOperands (names : Names) (enter : Callable → List (String × Value) → Evaluation Value) :
    List (Piece Tree) → List (Piece Operand)
  | [] => []
  | .token text :: rest => .token text :: openOperands names enter rest
  | .tree tree :: rest => .tree ⟨tree, openTree names enter tree⟩ :: openOperands names enter rest
termination_by structural pieces => pieces

def openGiven (names : Names) (enter : Callable → List (String × Value) → Evaluation Value) :
    List (Piece Tree) → List (Piece Operand)
  | [_, _, .tree (.node .arguments pieces _), _] => openOperands names enter pieces
  | _ => []
termination_by structural pieces => pieces

end

def openWithin : Nat → Scope → Tree → Evaluation Value
  | 0 => fun _ _ _ => none
  | depth + 1 => fun scope =>
      openTree scope.names fun callable bindings =>
        openWithin depth (scope.bind bindings) callable.body

end Evaluation

/-- Evaluates a tree in a scope. A fault ends the evaluation at once: it is not told of any call,
and the calls under way are those under way when it was raised. -/
def Tree.evaluateOpen (scope : Scope) (tree : Tree) : Evaluation Value := fun calls =>
  Evaluation.openWithin (Evaluation.allowance scope calls) scope tree calls

/-- The fault as it leaves the calls, the latest of which comes first: the outermost is noted. -/
def Fault.leaving (active : List Call) (fault : Fault) : Fault :=
  match active.getLast? with
  | some outermost => fault.withNote outermost.note
  | none => fault

namespace Evaluation

/-- From the calls under way an evaluation ends, beside one that leaves calls open. Both end with
one value, with the calls as they were. Or a fault ends the second among further calls, and says
nothing of them; then the first closes these calls, and its fault is noted if there are no others.
-/
inductive Closes (calls : Calls) (begins : Call → Prop) {α : Type} :
    Option (Except Fault α × Calls) → Option (Except Fault α × Calls) → Prop where
  | ok (result : α) : Closes calls begins (some (.ok result, calls)) (some (.ok result, calls))
  | error {fault : Fault} {further : List Call}
      (unnoted : ∀ name position, .inCall name position ∉ fault.notes)
      (begun : ∀ call, further.getLast? = some call → begins call)
      (admitted : ∀ limit, calls.limit? = some limit →
        further = [] ∨ further.length + calls.depth ≤ limit) :
      Closes calls begins
        (some (.error (if calls.isEmpty then fault.leaving further else fault), calls))
        (some (.error fault, ⟨further ++ calls.active, calls.limit?⟩))
  | unfollowed : Closes calls begins none none

variable {calls : Calls} {begins : Call → Prop}

/-- A fault among no further calls is the same on both sides. -/
theorem Closes.raised {α : Type} {fault : Fault}
    (unnoted : ∀ name position, .inCall name position ∉ fault.notes) :
    Closes (α := α) calls begins (some (.error fault, calls)) (some (.error fault, calls)) := by
  have closed : Closes (α := α) calls begins
      (some (.error (if calls.isEmpty then fault.leaving [] else fault), calls))
      (some (.error fault, calls)) :=
    .error unnoted (fun _ last => nomatch last) (fun _ _ => .inl rfl)
  have same : (if calls.isEmpty then fault.leaving [] else fault) = fault := by
    split <;> rfl
  rwa [same] at closed

/-- What is said of the calls that are left open can be left unsaid. -/
theorem Closes.anywhere {α : Type} {closed opened : Option (Except Fault α × Calls)}
    (closes : Closes calls begins closed opened) : Closes calls (fun _ => True) closed opened := by
  cases closes with
  | ok result => exact .ok result
  | error unnoted _ admitted => exact .error unnoted (fun _ _ => trivial) admitted
  | unfollowed => exact .unfollowed

/-- The first evaluation closes what the second leaves open, from the calls under way. -/
def ClosesFrom (calls : Calls) (begins : Call → Prop) {α : Type} (closed opened : Evaluation α) :
    Prop :=
  Closes calls begins (closed calls) (opened calls)

theorem closes_congruent (calls : Calls) (begins : Call → Prop) (places : Location → Prop) :
    Congruent (ClosesFrom calls begins) places where
  pure result := .ok result
  throw raised := .raised raised.unnoted
  bind := by
    intro α β left right leftRest rightRest first rest
    rw [ClosesFrom] at first ⊢
    rw [bind_apply, bind_apply]
    generalize left calls = ended at first ⊢
    generalize right calls = ended' at first ⊢
    cases first with
    | ok result => exact rest result
    | error unnoted begun admitted => exact .error unnoted begun admitted
    | unfollowed => exact .unfollowed

/-- A call closes itself, if it begins, and then it is the outermost of those that are left open. -/
theorem closes_during {call : Call} {body opened : Evaluation Value} (here : begins call)
    (inner : calls.HasRoom → ClosesFrom (calls.inside call) (fun _ => True) body opened) :
    ClosesFrom calls begins (during call body) (openDuring call opened) := by
  unfold ClosesFrom openDuring
  rcases calls.push_cases call with room | ⟨limit, _, _, full⟩
  · have ended := inner room
    unfold ClosesFrom at ended
    rw [during_of_room room, Calls.push_of_room room]
    dsimp only
    generalize body (calls.inside call) = left at ended ⊢
    generalize opened (calls.inside call) = right at ended ⊢
    cases ended with
    | unfollowed => exact .unfollowed
    | ok value => exact .ok value
    | @error fault further unnoted _ admitted =>
        have closed : Closes (α := Value) calls begins
            (some (.error (if calls.isEmpty then fault.leaving (further ++ [call]) else fault),
              calls))
            (some (.error fault, ⟨further ++ [call] ++ calls.active, calls.limit?⟩)) := by
          refine .error unnoted ?_ ?_
          · intro outermost last
            rw [List.getLast?_concat] at last
            cases last
            exact here
          · intro limit limited
            right
            rw [List.length_append, List.length_singleton]
            rcases admitted limit limited with rfl | within_
            · have free := room limit limited
              rw [List.length_nil]
              omega
            · rw [Calls.inside_depth] at within_
              omega
        rw [List.append_assoc, Fault.leaving, List.getLast?_concat] at closed
        exact closed
  · rw [during_of_refused full, full]
    exact .raised fun _ _ member => nomatch member

section

variable {names : Names} {enter otherEnter : Callable → List (String × Value) → Evaluation Value}
  {pieces others given ungiven : List (Piece Operand)} {place : Location}

/-- A call closes if it does once its arguments are converted. -/
theorem closes_call (alike : List.Forall₂ (Piece.Related (ClosesFrom calls begins)) pieces others)
    (inside : List.Forall₂ (Piece.Related (ClosesFrom calls begins)) given ungiven)
    (entered : ∀ callee rest name callable, pieces = callee :: rest →
      Argument.name? callee = some name → names.callable? name = some callable →
      ∀ converted, EndsPure converted (fun _ => True) (Fault.RaisedAmong fun _ => True) →
        ClosesFrom calls begins (during ⟨name, place⟩ (enterConverted enter callable converted))
          (openDuring ⟨name, place⟩ (enterConverted otherEnter callable converted))) :
    ClosesFrom calls begins (call names enter place pieces given)
      (openCall names otherEnter place others ungiven) := by
  have parallel := (closes_congruent calls begins fun _ => True).parallel
  have here : place.SameAmong (fun _ => True) place := ⟨rfl, trivial⟩
  apply parallel.told (call_parts_beside here (beside_of_related (fun _ _ => trivial) alike)
    (beside_of_related (fun _ _ => trivial) inside))
  rintro ⟨name, arguments⟩ ⟨name', arguments'⟩ found _ ⟨sameName, same⟩
  obtain ⟨callee, list, rfl, named, _, _⟩ := of_call_parts found
  dsimp only at sameName same
  subst name'
  apply parallel.told (callee_beside (names.beside_itself fun _ => True) trivial here)
  rintro callable _ _ _ ⟨called, called', signatures⟩
  cases called.symm.trans called'
  apply parallel.bind (parallel.ofExcept (Argument.check_beside signatures same here))
  intro _
  rw [Argument.evaluate_all_eq, Argument.evaluate_all_eq, map_eq_pure_bind, map_eq_pure_bind,
    bind_assoc, bind_assoc]
  apply parallel.bind (values_beside parallel same)
  intro values
  rw [pure_bind, pure_bind]
  obtain ⟨converted, ends⟩ :=
    alike_outcomes_iff.mp (Argument.convert_all_beside signatures same values)
  have enters := entered callee _ name callable rfl named called _ ends
  rw [enterConverted, enterConverted] at enters
  rw [invoke, invoke, ← converted]
  exact enters

end

theorem open_operands_eq_map (names : Names)
    (enter : Callable → List (String × Value) → Evaluation Value) (pieces : List (Piece Tree)) :
    openOperands names enter pieces =
      pieces.map (.map fun tree => ⟨tree, openTree names enter tree⟩) := by
  induction pieces with
  | nil => rfl
  | cons piece rest induction =>
      cases piece with
      | token text => rw [openOperands, List.map_cons, induction, Piece.map]
      | tree tree => rw [openOperands, List.map_cons, induction, Piece.map]

theorem open_given_eq_map (names : Names)
    (enter : Callable → List (String × Value) → Evaluation Value) (pieces : List (Piece Tree)) :
    openGiven names enter pieces =
      (Tree.argumentPieces pieces).map (.map fun tree => ⟨tree, openTree names enter tree⟩) := by
  unfold Tree.argumentPieces
  split
  · rw [openGiven, open_operands_eq_map]
  · next unlisted => rw [openGiven.eq_2 names enter pieces unlisted, List.map_nil]

/-- A tree closes what it leaves open if its calls do. -/
theorem closes_tree {names : Names} {tree : Tree}
    {enter otherEnter : Callable → List (String × Value) → Evaluation Value}
    (entered : ∀ name place callable, tree.CallsAt name place →
      names.callable? name = some callable →
      ∀ converted, EndsPure converted (fun _ => True) (Fault.RaisedAmong fun _ => True) →
        ClosesFrom calls begins (during ⟨name, place⟩ (enterConverted enter callable converted))
          (openDuring ⟨name, place⟩ (enterConverted otherEnter callable converted))) :
    ClosesFrom calls begins (ofTree names enter tree) (openTree names otherEnter tree) := by
  have everywhere : ∀ inner : Tree, inner.PartOf tree →
      ClosesFrom calls begins (ofTree names enter inner) (openTree names otherEnter inner) := by
    intro inner part
    induction inner using Tree.induct_two_levels with
    | node production pieces place induction further =>
        have inside : ∀ inner : Tree, .tree inner ∈ pieces → inner.PartOf tree :=
          fun inner member => .trans (.inside member .whole) part
        have given : ∀ inner, .tree inner ∈ Tree.argumentPieces pieces →
            ClosesFrom calls begins (ofTree names enter inner)
              (openTree names otherEnter inner) := by
          intro inner member
          obtain ⟨list, listed, given⟩ := Tree.argument_pieces_inside member
          refine further list listed inner given (.trans ?_ (inside list listed))
          obtain ⟨_, groups, _⟩ := list
          exact .inside given .whole
        have alike := mapped_related fun inner member =>
          induction inner member (inside inner member)
        have alikeGiven := mapped_related given
        have begun : ∀ callee rest name callable, production = .call →
            pieces.map (.map (operand names enter)) = callee :: rest →
            Argument.name? callee = some name → names.callable? name = some callable →
            ∀ converted, EndsPure converted (fun _ => True) (Fault.RaisedAmong fun _ => True) →
              ClosesFrom calls begins
                (during ⟨name, place⟩ (enterConverted enter callable converted))
                (openDuring ⟨name, place⟩ (enterConverted otherEnter callable converted)) := by
          intro callee rest name callable produced same named
          have called : (Tree.node production pieces place).CallsAt name place :=
            calls_at_of_call produced same named
          obtain ⟨_, _, itself, named⟩ := called
          exact entered name place callable ⟨_, _, itself.trans part, named⟩
        rw [of_tree_eq_reduce, openTree, open_operands_eq_map, open_given_eq_map, openReduce]
        split
        · next produced =>
          obtain rfl : production = .call := produced
          exact closes_call alike alikeGiven fun callee rest name callable =>
            begun callee rest name callable rfl
        · next produced =>
          apply reduce_related (closes_congruent calls begins fun _ => True) trivial
            (fun _ _ => trivial) (fun _ _ => trivial) alike alikeGiven
          exact fun isCall => absurd isCall produced
  exact everywhere tree .whole

/-- An evaluation closes what the evaluation leaves open that stands beside it. -/
theorem closes_within (depth : Nat) (scope : Scope) (tree : Tree) (calls : Calls) :
    ClosesFrom calls
      (fun call => tree.CallsAt call.name call.location ∧ (scope.callable? call.name).isSome = true)
      (within depth scope tree) (openWithin depth scope tree) := by
  induction depth generalizing scope tree calls with
  | zero => exact .unfollowed
  | succ depth induction =>
      rw [within_succ, openWithin]
      apply closes_tree
      intro name place callable called found converted ends
      have isCallable : (scope.callable? name).isSome = true :=
        Option.isSome_iff_exists.mpr ⟨callable, found⟩
      apply closes_during ⟨called, isCallable⟩
      intro room
      apply enter_converted_related (closes_congruent _ _ fun _ => True) trivial ends
      intro bindings
      exact (induction (scope.bind bindings) callable.body _).anywhere

/-- An evaluation with no call under way comes to a value if it does when calls are left open, and
to the same. If it fails, it does so for a fault that was raised, without a note of any call, while
certain calls were under way, no more than the limit admits. If there were none, the fault is as it
was raised. Otherwise it has one note more, and last: that it happened in the outermost of them, a
call of a callable that stands in the tree itself. -/
theorem call_note_is_of_outermost_call (scope : Scope) (tree : Tree) (limit? : Option Nat) :
    (∀ value, tree.evaluate scope (.start limit?) = some (.ok value, .start limit?) ↔
      tree.evaluateOpen scope (.start limit?) = some (.ok value, .start limit?)) ∧
    ∀ fault next, tree.evaluate scope (.start limit?) = some (.error fault, next) →
      ∃ raised active,
        tree.evaluateOpen scope (.start limit?) = some (.error raised, ⟨active, limit?⟩) ∧
        (∀ name position, .inCall name position ∉ raised.notes) ∧
        (∀ limit, limit? = some limit → active.length ≤ limit) ∧
        (active = [] → fault = raised) ∧
        ∀ inner outermost, active = inner ++ [outermost] →
          fault = raised.withNote (.inCall outermost.name outermost.location.position) ∧
          tree.CallsAt outermost.name outermost.location ∧
          (scope.callable? outermost.name).isSome = true := by
  have closes := closes_within (allowance scope (.start limit?)) scope tree (.start limit?)
  rw [ClosesFrom] at closes
  rw [Tree.evaluate, Tree.evaluateOpen]
  generalize within _ scope tree _ = closed at closes ⊢
  generalize openWithin _ scope tree _ = opened at closes ⊢
  cases closes with
  | unfollowed =>
      refine ⟨fun _ => iff_of_false (by rintro ⟨⟩) (by rintro ⟨⟩), ?_⟩
      rintro fault next ⟨⟩
  | ok value =>
      refine ⟨fun _ => Iff.rfl, ?_⟩
      rintro fault next ⟨⟩
  | @error raised further unnoted begun admitted =>
      refine ⟨fun _ => iff_of_false (by rintro ⟨⟩) (by rintro ⟨⟩), ?_⟩
      intro fault next failed
      cases failed
      refine ⟨raised, further, ?_, unnoted, ?_, ?_, ?_⟩
      · rw [Calls.start, List.append_nil]
      · intro limit limited
        rcases admitted limit limited with rfl | within_
        · exact Nat.zero_le limit
        · exact within_
      · rintro rfl
        rfl
      · rintro inner outermost rfl
        have last : (inner ++ [outermost]).getLast? = some outermost := List.getLast?_concat
        refine ⟨?_, begun outermost last⟩
        have noOthers : (Calls.start limit?).isEmpty = true := rfl
        rw [if_pos noOthers, Fault.leaving, last]
        rfl

/-- The calls that were under way when an evaluation failed, if it leaves calls open. -/
def openCalls? : Option (Except Fault Value × Calls) → Option (List Call)
  | some (.error _, left) => some left.active
  | some (.ok _, _) => none
  | none => none

/-- An argument is a call that divides by zero. The call it is an argument of has not begun, and so
the note is of the call inside. -/
theorem failing_argument_notes_inner_call :
    ∃ body tree fault raised next, parse "1 / a" = .ok [body] ∧
      parse "f(a = f(a = 0))" = .ok [tree] ∧
      tree.evaluate (.unary body ⟨1, 1⟩) (.start (some 4)) = some (.error fault, next) ∧
      tree.evaluateOpen (.unary body ⟨1, 1⟩) (.start (some 4)) =
        some (.error raised, ⟨[⟨"f", ⟨⟨6, 14⟩, ⟨1, 7⟩⟩⟩], some 4⟩) ∧
      fault = raised.withNote (.inCall "f" ⟨1, 7⟩) := by
  obtain ⟨body, readBody⟩ : ∃ body, parse "1 / a" = .ok [body] := ⟨_, rfl⟩
  obtain ⟨tree, readTree⟩ : ∃ tree, parse "f(a = f(a = 0))" = .ok [tree] := ⟨_, rfl⟩
  have failing : faultNotes? (tree.evaluate (.unary body ⟨1, 1⟩) (.start (some 4))) =
      some [.inCall "f" ⟨1, 7⟩] := by
    cases readBody
    cases readTree
    decide +kernel
  have leaves : openCalls? (tree.evaluateOpen (.unary body ⟨1, 1⟩) (.start (some 4))) =
      some [⟨"f", ⟨⟨6, 14⟩, ⟨1, 7⟩⟩⟩] := by
    cases readBody
    cases readTree
    decide +kernel
  obtain ⟨_, noted⟩ := call_note_is_of_outermost_call (.unary body ⟨1, 1⟩) tree (some 4)
  cases ended : tree.evaluate (.unary body ⟨1, 1⟩) (.start (some 4)) with
  | none =>
      rw [ended] at failing
      cases failing
  | some ran =>
      obtain ⟨outcome, next⟩ := ran
      cases outcome with
      | ok value =>
          rw [ended] at failing
          cases failing
      | error fault =>
          obtain ⟨raised, active, opened, _, _, _, inCalls⟩ := noted fault next ended
          rw [opened] at leaves
          cases leaves
          exact ⟨body, tree, fault, raised, next, readBody, readTree, ended, opened,
            (inCalls [] _ rfl).1⟩

end Evaluation

end Reckon

