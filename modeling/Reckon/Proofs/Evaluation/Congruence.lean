import Reckon.Proofs.Evaluation.Parallel

/-!
Evaluations that are put together alike: two evaluations of one tree, side by side. A relation that
results, faults and one evaluation after the other respect holds of what the tree does as soon as it
holds of the calls it makes, and what is kept by putting evaluations together is said of the tree as
soon as it is said of its calls.
-/

namespace Reckon

/-- A fault as the rules raise it themselves, without any call: at one of the places, and not for
the bound on calls or with a note of a call. -/
structure Fault.RaisedAmong (places : Location → Prop) (fault : Fault) : Prop where
  located : ∃ place, places place ∧ fault.location? = some place
  unbounded : ∀ name limit, fault.cause ≠ .recursionLimit name limit
  unnoted : ∀ name position, .inCall name position ∉ fault.notes

/-- A relation between evaluations of any type that the same result has to itself, that a fault
raised at one of the places has to itself, and that related evaluations keep when each is followed
by related ones. -/
structure Congruent (related : ∀ {α : Type}, Evaluation α → Evaluation α → Prop)
    (places : Location → Prop) : Prop where
  pure {α : Type} (result : α) : related (Pure.pure result) (Pure.pure result)
  throw {α : Type} {fault : Fault} (raised : fault.RaisedAmong places) :
    related (MonadExcept.throw fault : Evaluation α) (MonadExcept.throw fault)
  bind {α β : Type} {left right : Evaluation α} {leftRest rightRest : α → Evaluation β}
    (first : related left right) (rest : ∀ result, related (leftRest result) (rightRest result)) :
    related (left >>= leftRest) (right >>= rightRest)

/-- The same piece; where it is a tree, with related evaluations. -/
inductive Piece.Related (related : Evaluation Value → Evaluation Value → Prop) :
    Piece Operand → Piece Operand → Prop where
  | token (text : String) : Related related (.token text) (.token text)
  | tree (tree : Tree) {left right : Evaluation Value} (same : related left right) :
      Related related (.tree ⟨tree, left⟩) (.tree ⟨tree, right⟩)

/-- The same location, which is one of the places. -/
def Location.SameAmong (places : Location → Prop) (location other : Location) : Prop :=
  location = other ∧ places location

/-- All nodes of a tree that stands beside itself are at the places. -/
theorem Tree.places_of_beside {places : Location → Prop} {tree other : Tree}
    (beside : tree.Beside (Location.SameAmong places) other) :
    ∀ inner : Tree, inner.PartOf tree → places inner.location := by
  induction tree generalizing other with
  | node production pieces place induction =>
      cases beside with
      | node here inside =>
          intro inner part
          cases part with
          | whole => exact here.2
          | @inside _ _ _ middle member part =>
              obtain ⟨_, middles⟩ := Piece.beside_of_member inside member
              exact induction middle member middles inner part

theorem Names.beside_itself (names : Names) (looked : String → Prop) :
    names.Beside looked names where
  values _ _ := rfl
  callables name _ := by
    cases names.callable? name with
    | none => exact .none
    | some callable => exact .some ⟨rfl, rfl, rfl⟩

section

variable {related : ∀ {α : Type}, Evaluation α → Evaluation α → Prop} {places : Location → Prop}
  {α : Type}

/-- One fault raised twice at the same place is a fault raised there. -/
theorem Fault.raised_beside_iff {fault other : Fault} :
    fault.RaisedBeside (Location.SameAmong places) other ↔
      fault = other ∧ fault.RaisedAmong places := by
  constructor
  · rintro (@⟨bare, place, _, isBare, rfl, here⟩)
    refine ⟨rfl, ⟨place, here, ?_⟩, isBare.unbounded, isBare.unnoted⟩
    rw [locate, isBare.unlocated]
    rfl
  · rintro ⟨rfl, ⟨place, here, located⟩, unbounded, unnoted⟩
    obtain ⟨cause, _, notes⟩ := fault
    cases located
    have bare : (⟨cause, none, notes⟩ : Fault).IsBare := ⟨rfl, unbounded, unnoted⟩
    exact .located bare ⟨rfl, here⟩

theorem alike_outcomes_iff {outcome other : Except Fault α} :
    AlikeOutcomes (· = ·) (Location.SameAmong places) outcome other ↔
      outcome = other ∧ EndsPure outcome (fun _ => True) (Fault.RaisedAmong places) := by
  constructor
  · rintro (same | raised)
    · exact ⟨congrArg _ same, .ok trivial⟩
    · obtain ⟨rfl, known⟩ := Fault.raised_beside_iff.mp raised
      exact ⟨rfl, .error known⟩
  · rintro ⟨rfl, ends⟩
    cases outcome with
    | ok result => exact .ok rfl
    | error fault => exact .error (Fault.raised_beside_iff.mpr ⟨rfl, ends.failed fault rfl⟩)

theorem Congruent.parallel (congruent : Congruent related places) :
    Parallel related (Location.SameAmong places) where
  pure := congruent.pure
  throw raised := by
    obtain ⟨rfl, known⟩ := Fault.raised_beside_iff.mp raised
    exact congruent.throw known
  bind := congruent.bind

namespace Evaluation

variable {pieces others given ungiven : List (Piece Operand)} {names : Names}
  {enter otherEnter : Callable → List (String × Value) → Evaluation Value}

theorem enter_converted_related (congruent : Congruent related places) {callable : Callable}
    (here : places callable.body.location) {converted : Except Fault (List (String × Value))}
    (ends : EndsPure converted (fun _ => True) (Fault.RaisedAmong places))
    (entered : ∀ bindings, related (enter callable bindings) (otherEnter callable bindings)) :
    related (enterConverted enter callable converted)
      (enterConverted otherEnter callable converted) :=
  enter_converted_beside congruent.parallel rfl ⟨rfl, here⟩ (alike_outcomes_iff.mpr ⟨rfl, ends⟩)
    entered

theorem beside_of_related (among : ∀ operand, .tree operand ∈ pieces →
      places operand.tree.location)
    (alike : List.Forall₂ (Piece.Related related) pieces others) :
    List.Forall₂ (Piece.Beside (Operand.Beside (Location.SameAmong places) related)) pieces
      others := by
  induction alike with
  | nil => exact .nil
  | cons first _ induction =>
      refine .cons ?_ (induction fun operand member => among operand (by simp [member]))
      cases first with
      | token text => exact .token text
      | tree tree same => exact .tree ⟨rfl, rfl, ⟨rfl, among ⟨tree, _⟩ (by simp)⟩, fun _ => same⟩

theorem alone_of_related (alike : List.Forall₂ (Piece.Related related) pieces others) :
    RelatedAlone related pieces others := by
  rintro left right rfl rfl
  cases alike with
  | cons first _ =>
      cases first with
      | tree tree same => exact same

/-- What a tree does is related to what it does with other evaluations of its pieces and of the
bodies it enters, if those are related. -/
theorem reduce_related (congruent : Congruent related places) {tree : Tree}
    (here : places tree.location)
    (among : ∀ operand, .tree operand ∈ pieces → places operand.tree.location)
    (amongGiven : ∀ operand, .tree operand ∈ given → places operand.tree.location)
    (alike : List.Forall₂ (Piece.Related related) pieces others)
    (inside : List.Forall₂ (Piece.Related related) given ungiven)
    (entered : tree.production = .call → ∀ callee rest name callable, pieces = callee :: rest →
      Argument.name? callee = some name → names.callable? name = some callable →
      ∀ converted, EndsPure converted (fun _ => True) (Fault.RaisedAmong places) →
        related (during ⟨name, tree.location⟩ (enterConverted enter callable converted))
          (during ⟨name, tree.location⟩ (enterConverted otherEnter callable converted))) :
    related (reduce names enter tree pieces given)
      (reduce names otherEnter tree others ungiven) := by
  apply reduce_beside congruent.parallel (names.beside_itself fun _ => True) rfl rfl ⟨rfl, here⟩
    (fun _ _ => trivial) (fun _ _ _ _ _ _ => trivial) (fun _ => alone_of_related alike)
    (beside_of_related among alike) (beside_of_related amongGiven inside)
  intro produced callee rest name callable callable' first named called called' converted
    converted' told
  cases called.symm.trans called'
  obtain ⟨rfl, ends⟩ := alike_outcomes_iff.mp told
  exact entered produced callee rest name callable first named called converted ends

theorem mapped_related {related : Evaluation Value → Evaluation Value → Prop}
    {first second : Tree → Evaluation Value} {pieces : List (Piece Tree)}
    (alike : ∀ inner, .tree inner ∈ pieces → related (first inner) (second inner)) :
    List.Forall₂ (Piece.Related related)
      (pieces.map (.map fun inner => ⟨inner, first inner⟩))
      (pieces.map (.map fun inner => ⟨inner, second inner⟩)) := by
  rw [List.forall₂_map_left_iff, List.forall₂_map_right_iff, List.forall₂_same]
  intro piece member
  cases piece with
  | token text => exact .token text
  | tree inner => exact .tree inner (alike inner member)

/-- What a tree does is related to what it does with other bodies entered, if its calls are. -/
theorem of_tree_related (congruent : Congruent related places) {tree : Tree}
    (within : ∀ inner : Tree, inner.PartOf tree → places inner.location)
    (entered : ∀ name place callable, tree.CallsAt name place →
      names.callable? name = some callable →
      ∀ converted, EndsPure converted (fun _ => True) (Fault.RaisedAmong places) →
        related (during ⟨name, place⟩ (enterConverted enter callable converted))
          (during ⟨name, place⟩ (enterConverted otherEnter callable converted))) :
    related (ofTree names enter tree) (ofTree names otherEnter tree) := by
  apply of_tree_beside congruent.parallel (names.beside_itself _)
    (Tree.beside_itself fun inner part => ⟨rfl, within inner part⟩)
  rintro name place _ callable callable' calls ⟨rfl, _⟩ called called' converted converted' told
  cases called.symm.trans called'
  obtain ⟨rfl, ends⟩ := alike_outcomes_iff.mp told
  exact entered name place callable calls called converted ends

end Evaluation

end

namespace Evaluation

theorem equal_congruent (places : Location → Prop) :
    Congruent (fun {_} left right => left = right) places where
  pure _ := rfl
  throw _ := rfl
  bind first rest := by
    rw [first, funext rest]

section

variable {names : Names} {enter : Callable → List (String × Value) → Evaluation Value}
  {holds : ∀ {α : Type}, Evaluation α → Prop} {places : Location → Prop}

/-- What is said of entering a body extends to what the call comes to, if it is kept by putting
evaluations together. -/
theorem enter_converted_holds
    (congruent : Congruent (fun evaluation _ => holds evaluation) places) {callable : Callable}
    (here : places callable.body.location) {converted : Except Fault (List (String × Value))}
    (ends : EndsPure converted (fun _ => True) (Fault.RaisedAmong places))
    (entered : ∀ bindings, holds (enter callable bindings)) :
    holds (enterConverted enter callable converted) :=
  @enter_converted_related (fun evaluation _ => holds evaluation) places enter enter congruent
    callable here converted ends entered

/-- What is said of the calls of a tree extends to the tree, if it is kept by putting evaluations
together. -/
theorem of_tree_holds (congruent : Congruent (fun evaluation _ => holds evaluation) places)
    {tree : Tree} (within : ∀ inner : Tree, inner.PartOf tree → places inner.location)
    (entered : ∀ name place callable, tree.CallsAt name place →
      names.callable? name = some callable →
      ∀ converted, EndsPure converted (fun _ => True) (Fault.RaisedAmong places) →
        holds (during ⟨name, place⟩ (enterConverted enter callable converted))) :
    holds (ofTree names enter tree) :=
  @of_tree_related (fun evaluation _ => holds evaluation) places names enter enter congruent tree
    within entered

end

end Evaluation

end Reckon
