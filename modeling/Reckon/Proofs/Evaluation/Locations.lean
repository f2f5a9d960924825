import Reckon.Proofs.Evaluation.Termination
import Reckon.Proofs.Scope.Bindings
import Reckon.Proofs.Tree.Unlocated

/-!
Where trees stand makes no difference to what they come to. Trees of the same structure, in scopes
that differ in the locations of their callables only, come to the same values, and to faults that
differ in locations only. What is carried through calls is that the bodies entered have the same
structure and that as many calls are under way.
-/

namespace Reckon

/-- The note with the position in it forgotten. -/
def Note.unplaced : Note → Note
  | .inCall name _ => .inCall name .start
  | note => note

/-- The two faults are the same apart from locations. -/
structure Fault.Alike (fault other : Fault) : Prop where
  cause : fault.cause = other.cause
  notes : fault.notes.map Note.unplaced = other.notes.map Note.unplaced
  located : fault.location?.isSome = other.location?.isSome

/-- The two callables are the same apart from locations. -/
structure Callable.Alike (callable other : Callable) : Prop where
  name : callable.name = other.name
  returns : callable.returns = other.returns
  parameters : callable.parameters = other.parameters
  body : callable.body.Alike other.body

/-- Every name stands for the same value, or for callables that are the same apart from
locations. -/
structure Scope.Alike (scope other : Scope) : Prop where
  values : ∀ name, scope.value? name = other.value? name
  callables : ∀ name, Option.Rel Callable.Alike (scope.callable? name) (other.callable? name)

/-- As many calls are under way, and as many may be. -/
structure Calls.Alike (calls others : Calls) : Prop where
  depth : calls.depth = others.depth
  limit : calls.limit? = others.limit?

/-- Any location beside any other. -/
def Location.Anywhere (_ _ : Location) : Prop := True

namespace Fault

variable {fault other : Fault}

theorem alike_of_raised (raised : fault.RaisedBeside Location.Anywhere other) :
    fault.Alike other := by
  obtain ⟨bare, _⟩ := raised
  refine ⟨rfl, rfl, ?_⟩
  rw [locate, locate, bare.unlocated]
  rfl

theorem Alike.with_note (alike : fault.Alike other) {note note' : Note}
    (same : note.unplaced = note'.unplaced) :
    (fault.withNote note).Alike (other.withNote note') where
  cause := alike.cause
  notes := by
    rw [withNote, withNote, List.map_append, List.map_append, alike.notes, List.map_singleton,
      List.map_singleton, same]
  located := alike.located

end Fault

namespace Tree

theorem pieces_beside_of_alike {pieces others : List (Piece Tree)}
    (alike : AlikePieces others pieces)
    (inside : ∀ inner, .tree inner ∈ pieces → ∀ other : Tree, inner.Alike other →
      inner.Beside Location.Anywhere other) :
    List.Forall₂ (Piece.Beside (Beside Location.Anywhere)) pieces others := by
  induction pieces generalizing others with
  | nil =>
      rw [of_alike_nil alike]
      exact .nil
  | cons piece pieces induction =>
      have later := fun inner member => inside inner (List.mem_cons_of_mem _ member)
      cases piece with
      | token text =>
          obtain ⟨rest, rfl, behind⟩ := of_alike_cons_token alike
          exact .cons (.token text) (induction behind later)
      | tree inner =>
          obtain ⟨other, rest, rfl, same, behind⟩ := of_alike_cons_tree alike
          exact .cons (.tree (inside inner (by simp) other same.symm)) (induction behind later)

/-- Trees of the same structure stand beside each other, wherever that is. -/
theorem beside_of_alike {tree other : Tree} (alike : tree.Alike other) :
    tree.Beside Location.Anywhere other := by
  induction tree generalizing other with
  | node production pieces place induction =>
      obtain ⟨others, _, rfl, inside⟩ := of_alike_node alike.symm
      exact .node trivial (pieces_beside_of_alike inside fun inner member other same =>
        induction inner member same)

theorem alike_pieces_of_beside {pieces others : List (Piece Tree)}
    (beside : List.Forall₂ (Piece.Beside Alike) pieces others) : AlikePieces pieces others := by
  induction beside with
  | nil => rfl
  | cons first _ induction =>
      cases first with
      | token text => exact alike_cons_token induction
      | tree first => exact alike_cons_tree first induction

theorem alike_of_beside {places : Location → Location → Prop} {tree other : Tree}
    (beside : tree.Beside places other) : tree.Alike other := by
  induction tree generalizing other with
  | node production pieces place induction =>
      cases beside with
      | node _ inside =>
          exact alike_node (alike_pieces_of_beside
            (Piece.forall_beside_imp inside fun inner _ member => induction inner member))

end Tree

namespace Scope

variable {scope other : Scope}

theorem define_variable_alike (alike : scope.Alike other) (name : String) (value : Value) :
    (scope.defineVariable name value).Alike (other.defineVariable name value) where
  values found := by rw [define_variable_value?, define_variable_value?, alike.values]
  callables found := by
    rw [define_variable_callable?, define_variable_callable?]
    split
    · exact .none
    · exact alike.callables found

theorem bind_alike (alike : scope.Alike other) (bindings : List (String × Value)) :
    (scope.bind bindings).Alike (other.bind bindings) := by
  induction bindings generalizing scope other with
  | nil => exact alike
  | cons binding bindings induction =>
      exact induction (define_variable_alike alike binding.1 binding.2)

theorem define_callable_alike (alike : scope.Alike other) {callable callable' : Callable}
    (callables : callable.Alike callable') :
    (scope.defineCallable callable).Alike (other.defineCallable callable') where
  values found := by
    rw [define_callable_value?, define_callable_value?, alike.values, callables.name]
  callables found := by
    rw [define_callable_callable?, define_callable_callable?, callables.name]
    split
    · exact .some callables
    · exact alike.callables found

theorem callable_is_some (alike : scope.Alike other) (name : String) :
    (scope.callable? name).isSome = (other.callable? name).isSome := by
  have callables := alike.callables name
  generalize scope.callable? name = left at callables
  generalize other.callable? name = right at callables
  cases callables <;> rfl

theorem names_beside (alike : scope.Alike other) (looked : String → Prop) :
    scope.names.Beside looked other.names where
  values name _ := alike.values name
  callables name _ := by
    have callables := alike.callables name
    change Option.Rel _ (scope.callable? name) (other.callable? name)
    generalize scope.callable? name = left at callables
    generalize other.callable? name = right at callables
    cases callables with
    | none => exact .none
    | some callables => exact .some ⟨callables.name, callables.returns, callables.parameters⟩

/-- A scope with a callable of one parameter, whose definition starts at the position. -/
def unary (body : Tree) (position : Position) : Scope :=
  .defineCallable .empty ⟨"f", .int, [⟨"a", .int⟩], body, position⟩

theorem unary_alike {body body' : Tree} (same : body.sameStructure body' = true)
    (position position' : Position) : (unary body position).Alike (unary body' position') := by
  have nothing : empty.Alike empty := ⟨fun _ => rfl, fun name => by
    rw [empty_callable?]
    exact .none⟩
  exact define_callable_alike nothing ⟨rfl, rfl, rfl, (Tree.same_structure_iff body body').mp same⟩

/-- As many names stand for callables. -/
theorem size_callables (alike : scope.Alike other) :
    scope.callables.size = other.callables.size := by
  have same : ∀ name, name ∈ scope.callables.keys ↔ name ∈ other.callables.keys := by
    intro name
    rw [Std.TreeMap.mem_keys, Std.TreeMap.mem_keys, Std.TreeMap.mem_iff_isSome_getElem?,
      Std.TreeMap.mem_iff_isSome_getElem?]
    exact Bool.eq_iff_iff.mp (callable_is_some alike name)
  rw [← Std.TreeMap.length_keys, ← Std.TreeMap.length_keys]
  exact ((List.perm_ext_iff_of_nodup Std.TreeMap.nodup_keys Std.TreeMap.nodup_keys).mpr
    same).length_eq

end Scope

namespace Calls

variable {calls others : Calls}

theorem pop_alike (alike : calls.Alike others) : calls.pop.Alike others.pop where
  depth := by
    have depth : calls.active.length = others.active.length := alike.depth
    simp only [Calls.depth, pop, List.length_tail, depth]
  limit := alike.limit

theorem is_empty_alike (alike : calls.Alike others) : calls.isEmpty = others.isEmpty := by
  have depth : calls.active.length = others.active.length := alike.depth
  rw [Bool.eq_iff_iff, isEmpty, isEmpty, List.isEmpty_iff_length_eq_zero,
    List.isEmpty_iff_length_eq_zero, depth]

end Calls

namespace Evaluation

/-- What a call does is the same for its body, apart from locations. -/
theorem during_alike {name : String} {place other : Location} {body body' : Evaluation Value}
    (bodies : ProgramsAlike Fault.Alike Calls.Alike (· = ·) body body') :
    ProgramsAlike Fault.Alike Calls.Alike (· = ·) (during ⟨name, place⟩ body)
      (during ⟨name, other⟩ body') := by
  intro calls others alike
  rcases calls.push_cases ⟨name, place⟩ with room | ⟨limit, limited, reached, full⟩
  · have roomBeside : others.HasRoom := by
      intro limit limited
      rw [← alike.depth]
      exact room limit (alike.limit.trans limited)
    rw [during_of_room room, during_of_room roomBeside]
    have inside : (calls.inside ⟨name, place⟩).Alike (others.inside ⟨name, other⟩) :=
      ⟨congrArg (· + 1) alike.depth, alike.limit⟩
    have ended := bodies _ _ inside
    generalize body (calls.inside ⟨name, place⟩) = left at ended ⊢
    generalize body' (others.inside ⟨name, other⟩) = right at ended ⊢
    cases ended with
    | none => exact .none
    | some ended =>
        cases ended with
        | ok same left => exact .some (.ok same (Calls.pop_alike left))
        | @error fault fault' left left' faults leaves =>
            have popped := Calls.pop_alike leaves
            refine .some (.error ?_ popped)
            rw [Calls.is_empty_alike popped]
            split
            · exact faults.with_note rfl
            · exact faults
  · have fullBeside : others.push ⟨name, other⟩ = .error (Calls.refusal ⟨name, other⟩ limit) := by
      rw [Calls.push, ← alike.limit, limited, ← alike.depth]
      exact if_pos reached
    rw [during_of_refused full, during_of_refused fullBeside]
    exact .some (.error ⟨rfl, rfl, rfl⟩ alike)

/-- Trees of the same structure come to the same value, or to faults that are the same apart from
locations, in scopes that are the same apart from locations. -/
theorem within_alike (depth : Nat) {scope other : Scope} (scopes : scope.Alike other)
    {tree tree' : Tree} (trees : tree.Alike tree') :
    ProgramsAlike Fault.Alike Calls.Alike (· = ·) (within depth scope tree)
      (within depth other tree') := by
  induction depth generalizing scope other tree tree' with
  | zero => exact fun _ _ _ => .none
  | succ depth induction =>
      have parallel := ProgramsAlike.parallel Calls.Alike Fault.alike_of_raised
      apply of_tree_beside parallel (Scope.names_beside scopes _) (Tree.beside_of_alike trees)
      intro name place _ callable callable' _ _ called called' converted converted' told
      have callables : callable.Alike callable' := by
        have alike := scopes.callables name
        rw [show scope.callable? name = _ from called, show other.callable? name = _ from called']
          at alike
        cases alike with
        | some callables => exact callables
      apply during_alike
      apply enter_converted_beside parallel callables.returns trivial told
      intro bindings
      exact induction (Scope.bind_alike scopes bindings) callables.body

theorem evaluate_alike {scope other : Scope} (scopes : scope.Alike other) {tree tree' : Tree}
    (trees : tree.Alike tree') :
    ProgramsAlike Fault.Alike Calls.Alike (· = ·) (tree.evaluate scope) (tree'.evaluate other) := by
  intro calls others alike
  have depths : allowance scope calls = allowance other others := by
    rw [allowance, allowance, alike.limit, alike.depth, Scope.size_callables scopes]
  rw [Tree.evaluate, Tree.evaluate, depths]
  exact within_alike _ scopes trees calls others alike

/-- Two evaluations from no call under way come to the same value, or to faults that are the same
apart from locations, or neither is followed to its end. Again no call is left under way. -/
inductive AlikeEnds (limit? : Option Nat) : Option (Except Fault Value × Calls) →
    Option (Except Fault Value × Calls) → Prop where
  | value (value : Value) :
      AlikeEnds limit? (some (.ok value, .start limit?)) (some (.ok value, .start limit?))
  | fault {fault other : Fault} (alike : fault.Alike other) :
      AlikeEnds limit? (some (.error fault, .start limit?)) (some (.error other, .start limit?))
  | unfollowed : AlikeEnds limit? none none

theorem alike_ends_within (depth : Nat) {scope other : Scope} (scopes : scope.Alike other)
    {tree tree' : Tree} (trees : tree.Alike tree') (limit? : Option Nat) :
    AlikeEnds limit? (within depth scope tree (.start limit?))
      (within depth other tree' (.start limit?)) := by
  have ended := within_alike depth scopes trees (.start limit?) (.start limit?) ⟨rfl, rfl⟩
  generalize left : within depth scope tree (.start limit?) = end_ at ended ⊢
  generalize right : within depth other tree' (.start limit?) = end' at ended ⊢
  cases ended with
  | none => exact .unfollowed
  | some alike =>
      cases alike with
      | ok same _ =>
          rw [within_restores left, within_restores right, same]
          exact .value _
      | error faults _ =>
          rw [within_restores left, within_restores right]
          exact .fault faults

/-- Trees of the same structure come to the same value, or to faults of the same cause, with notes
that differ in the position of a call at most, in scopes with the same values and with callables of
the same signatures and of bodies of the same structure. So it is under every limit and without one,
however deep calls are followed, and under a limit both do come to something. -/
theorem evaluation_ignores_locations {scope other : Scope} {tree tree' : Tree}
    (scopes : scope.Alike other) (same : tree.sameStructure tree' = true) (limit? : Option Nat) :
    AlikeEnds limit? (tree.evaluate scope (.start limit?)) (tree'.evaluate other (.start limit?)) ∧
    (∀ depth, AlikeEnds limit? (within depth scope tree (.start limit?))
      (within depth other tree' (.start limit?))) ∧
    (limit?.isSome = true → (tree.evaluate scope (.start limit?)).isSome = true) := by
  have trees : tree.Alike tree' := (Tree.same_structure_iff tree tree').mp same
  refine ⟨?_, fun depth => alike_ends_within depth scopes trees limit?, ?_⟩
  · have allowed : allowance scope (.start limit?) = allowance other (.start limit?) := by
      rw [allowance, allowance, Scope.size_callables scopes]
    rw [Tree.evaluate, Tree.evaluate, allowed]
    exact alike_ends_within _ scopes trees limit?
  · intro limited
    obtain ⟨limit, rfl⟩ := Option.isSome_iff_exists.mp limited
    obtain ⟨outcome, ended⟩ := @evaluate_ends (.start (some limit)) limit scope tree rfl
    rw [ended]
    rfl

/-- The notes of the fault that an evaluation ended with. -/
def faultNotes? : Option (Except Fault Value × Calls) → Option (List Note)
  | some (.error fault, _) => some fault.notes
  | some (.ok _, _) => none
  | none => none

/-- A division by zero in a call. Both the body and the call are laid out in two ways, and the notes
say in which line and column the call is in each. -/
theorem moved_division_ignores_locations :
    ∃ body body' tree tree', parse "1 / a" = .ok [body] ∧ parse " 1/a" = .ok [body'] ∧
      parse "f(a = 0)" = .ok [tree] ∧ parse "  f( a=0 )" = .ok [tree'] ∧
      (Scope.unary body ⟨1, 1⟩).Alike (.unary body' ⟨7, 2⟩) ∧ tree.sameStructure tree' = true ∧
      AlikeEnds (some 1) (tree.evaluate (.unary body ⟨1, 1⟩) (.start (some 1)))
        (tree'.evaluate (.unary body' ⟨7, 2⟩) (.start (some 1))) ∧
      faultNotes? (tree.evaluate (.unary body ⟨1, 1⟩) (.start (some 1))) =
        some [.inCall "f" ⟨1, 1⟩] ∧
      faultNotes? (tree'.evaluate (.unary body' ⟨7, 2⟩) (.start (some 1))) =
        some [.inCall "f" ⟨1, 3⟩] := by
  refine ⟨_, _, _, _, rfl, rfl, rfl, rfl, Scope.unary_alike ?bodies _ _, ?trees,
    (evaluation_ignores_locations (Scope.unary_alike ?bodies _ _) ?trees _).1, ?first, ?second⟩
  all_goals decide +kernel

end Evaluation

end Reckon
