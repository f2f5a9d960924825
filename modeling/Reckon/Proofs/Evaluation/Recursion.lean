import Mathlib.Data.List.Nodup
import Reckon.Proofs.Evaluation.Nesting
import Reckon.Proofs.Evaluation.Strictness
import Reckon.Proofs.Scope.Bindings

/-!
Recursion has no value. Where a tree has a value, all calls in it have been made, and all calls in
the bodies that were entered. So a callable that calls itself, by way of others or not, would have
been entered again and again, each time with fewer calls left to be followed. Hence no name is
called twice among the calls under way, and there are never more of them than there are callables.
-/

namespace Reckon

namespace Scope

/-- The body of the outer callable calls the inner name. -/
def CalledBy (scope : Scope) (inner outer : String) : Prop :=
  ∃ callable place, scope.callable? outer = some callable ∧ callable.body.CallsAt inner place

/-- All callables of a scope are callables of the other. -/
def CallablesIn (inner scope : Scope) : Prop :=
  ∀ name callable, inner.callable? name = some callable → scope.callable? name = some callable

theorem CallablesIn.bind {inner scope : Scope} (among : inner.CallablesIn scope)
    (bindings : List (String × Value)) : (inner.bind bindings).CallablesIn scope :=
  fun name callable found => among name callable (callable_of_bind found)

/-- A scope with a callable that calls another one, which calls none. -/
def linked : Scope :=
  .defineCallable (.defineCallable .empty ⟨"f", .int, [], .bareCall "g" .unknown, .start⟩)
    ⟨"g", .int, [], .leaf .intLiteral "7" .unknown, .start⟩

end Scope

/-- No name is called twice among the calls under way. -/
def Calls.NoneTwice (calls : Calls) : Prop := (calls.active.map Call.name).Nodup

instance : DecidablePred Calls.NoneTwice := fun calls =>
  inferInstanceAs (Decidable (calls.active.map Call.name).Nodup)

namespace Evaluation

variable {scope inner : Scope} {tree : Tree} {calls others : Calls}

/-- Evaluation that looks at the calls under way whenever it is about to evaluate a body, and does
something else instead unless they are allowed. Between the beginning of a call and the body there
is only the conversion of the arguments, and where that fails no value is left to give. -/
def watched (allowed : Calls → Prop) [DecidablePred allowed] (instead : Evaluation Value) :
    Nat → Scope → Tree → Evaluation Value
  | 0 => fun _ _ _ => none
  | depth + 1 => fun scope => ofTree scope.names fun callable bindings calls =>
      if allowed calls then
        watched allowed instead depth (scope.bind bindings) callable.body calls
      else instead calls

/-- Where all calls are allowed there is nothing else to do. -/
theorem watched_eq_within (instead : Evaluation Value) (depth : Nat) :
    watched (fun _ => True) instead depth = within depth := by
  induction depth with
  | zero => rfl
  | succ depth induction =>
      funext scope
      rw [watched, within, induction]
      rfl

/-- Where a tree has a value, the calls in it do not lead to calls for ever. -/
theorem settled_of_returns {depth : Nat} (among : inner.CallablesIn scope)
    (returns : (within depth inner tree).Returns) {name : String} {place : Location}
    (called : tree.CallsAt name place) : Acc scope.CalledBy name := by
  -- on the depth: the body of a callable has its value with one call less to be followed
  induction depth generalizing inner tree name place with
  | zero =>
      obtain ⟨calls, value, next, ran⟩ := returns
      cases ran
  | succ depth induction =>
      obtain ⟨callable, bindings, found, entered⟩ := of_tree_strict returns name place called
      apply Acc.intro
      rintro further ⟨other, otherPlace, same, calledThere⟩
      rw [among name callable found] at same
      cases same
      exact induction (among.bind bindings) entered calledThere

/-- What holds of the calls under way when a tree comes to be evaluated: no name is called twice,
all are names of callables, and each leads to every call in the tree, none of which leads to calls
for ever. -/
structure Orderly (scope inner : Scope) (tree : Tree) (calls : Calls) : Prop where
  callables : inner.CallablesIn scope
  once : calls.NoneTwice
  known : ∀ call ∈ calls.active, (scope.callable? call.name).isSome = true
  leads : ∀ call ∈ calls.active, ∀ name place, tree.CallsAt name place →
    Relation.TransGen scope.CalledBy name call.name
  settled : ∀ name place, tree.CallsAt name place → Acc scope.CalledBy name

theorem orderly_start {depth : Nat} {limit? : Option Nat}
    (returns : (within depth scope tree).Returns) : Orderly scope scope tree (.start limit?) where
  callables _ _ found := found
  once := List.nodup_nil
  known _ member := nomatch member
  leads _ member := nomatch member
  settled _ _ called := settled_of_returns (fun _ _ found => found) returns called

/-- A name that does not lead to calls for ever does not lead to itself. -/
theorem not_called_by_itself {name : String} (settled : Acc scope.CalledBy name) :
    ¬Relation.TransGen scope.CalledBy name name := by
  have settledThrough := settled.transGen
  clear settled
  induction settledThrough with
  | intro name _ induction =>
      intro cycle
      exact induction name cycle cycle

/-- The calls stay so when a body is entered. -/
theorem Orderly.enter (orderly : Orderly scope inner tree calls) {name : String} {place : Location}
    {callable : Callable} (called : tree.CallsAt name place)
    (found : inner.callable? name = some callable) (bindings : List (String × Value)) :
    Orderly scope (inner.bind bindings) callable.body (calls.inside ⟨name, place⟩) where
  callables := orderly.callables.bind bindings
  once := by
    apply List.nodup_cons.mpr
    refine ⟨?_, orderly.once⟩
    intro member
    -- a call of that name under way leads to everything in the tree, and so to its own name
    obtain ⟨call, active, same⟩ := List.mem_map.mp member
    have cycle := orderly.leads call active name place called
    rw [same] at cycle
    exact not_called_by_itself (orderly.settled name place called) cycle
  known := by
    intro call member
    rcases List.mem_cons.mp member with rfl | active
    · exact Option.isSome_iff_exists.mpr ⟨callable, orderly.callables name callable found⟩
    · exact orderly.known call active
  leads := by
    intro call member further furtherPlace calledThere
    have here : scope.CalledBy further name :=
      ⟨callable, furtherPlace, orderly.callables name callable found, calledThere⟩
    rcases List.mem_cons.mp member with rfl | active
    · exact .single here
    · exact .head here (orderly.leads call active name place called)
  settled := by
    intro further furtherPlace calledThere
    apply (orderly.settled name place called).inv
    exact ⟨callable, furtherPlace, orderly.callables name callable found, calledThere⟩

/-- There are no more calls under way than callables. -/
theorem Orderly.depth_le (orderly : Orderly scope inner tree calls) :
    calls.depth ≤ scope.callables.size := by
  have among : calls.active.map Call.name ⊆ scope.callables.keys := by
    intro name member
    obtain ⟨call, active, rfl⟩ := List.mem_map.mp member
    rw [Std.TreeMap.mem_keys, Std.TreeMap.mem_iff_isSome_getElem?]
    exact orderly.known call active
  have length := orderly.once.length_le_of_subset among
  rw [List.length_map, Std.TreeMap.length_keys] at length
  exact length

/-- A value carries over to an evaluation that watches for names called twice, and to one under
another limit, if that admits as many calls or as many as there are callables. -/
theorem orderly_carries_over {allowed : Calls → Prop} [DecidablePred allowed]
    {instead : Evaluation Value} {depth deeper : Nat} (orderly : Orderly scope inner tree calls)
    (allows : ∀ calls : Calls, calls.NoneTwice → allowed calls)
    (active : others.active = calls.active)
    (deep : depth ≤ deeper ∨ scope.callables.size < deeper + calls.depth)
    (limits : LimitLe calls.limit? others.limit? ∨
      ∀ bound, others.limit? = some bound → scope.callables.size ≤ bound) :
    CarriesOver (fun _ => True) calls others (within depth inner tree)
      (watched allowed instead deeper inner tree) := by
  induction depth generalizing deeper inner tree calls others with
  | zero =>
      intro outcome next ran
      cases ran
  | succ depth induction =>
      cases deeper with
      | zero =>
          -- calls are followed far enough, as there are no more under way than callables
          have nested := orderly.depth_le
          omega
      | succ deeper =>
          apply of_tree_carries_over (fun _ _ _ => trivial) active (.inl fun _ _ => trivial)
          · intro name place callable called found room most limited
            have nested := (orderly.enter called found []).depth_le
            rw [Calls.inside_depth] at nested
            rw [Calls.depth, active]
            rcases limits with ordered | wide
            · obtain ⟨least, limitedToo, smaller⟩ := ordered most limited
              exact Nat.lt_of_lt_of_le (room least limitedToo) smaller
            · exact Nat.lt_of_lt_of_le nested (wide most limited)
          · intro name place callable bindings called found room outcome next ran
            have nested := orderly.enter called found bindings
            have sameActive : (others.inside ⟨name, place⟩).active =
                (calls.inside ⟨name, place⟩).active := by
              rw [Calls.inside_active, Calls.inside_active, active]
            have once : (others.inside ⟨name, place⟩).NoneTwice := by
              rw [Calls.NoneTwice, sameActive]
              exact nested.once
            have deepInside : depth ≤ deeper ∨
                scope.callables.size < deeper + (calls.inside ⟨name, place⟩).depth := by
              rw [Calls.inside_depth]
              omega
            dsimp only
            rw [if_pos (allows _ once)]
            exact induction nested sameActive deepInside limits outcome next ran

theorem size_lt_allowance {bound? : Option Nat}
    (wide : ∀ bound, bound? = some bound → scope.callables.size ≤ bound) :
    scope.callables.size < allowance scope (.start bound?) := by
  cases bound? with
  | none =>
      have followed : 0 < followedDepth := by decide
      change scope.callables.size < followedDepth + scope.callables.size
      omega
  | some bound =>
      have admitted := wide bound rfl
      change scope.callables.size < bound - 0 + 1
      omega

/-- An evaluation that gives a value never has two calls of one name under way: whatever is done
instead as soon as there are, it gives that value. And it gives the value under every limit that
admits as many calls as there are callables, and without a limit. -/
theorem returning_evaluation_never_recurs {depth : Nat} {limit? : Option Nat} {value : Value}
    {next : Calls} (returned : within depth scope tree (.start limit?) = some (.ok value, next)) :
    (∀ instead, watched Calls.NoneTwice instead depth scope tree (.start limit?) =
      some (.ok value, .start limit?)) ∧
    ∀ bound?, (∀ bound, bound? = some bound → scope.callables.size ≤ bound) →
      tree.evaluate scope (.start bound?) = some (.ok value, .start bound?) := by
  have orderly : Orderly scope scope tree (.start limit?) :=
    orderly_start ⟨.start limit?, value, next, returned⟩
  constructor
  · intro instead
    have carried : CarriesOver (fun _ => True) (.start limit?) (.start limit?)
        (within depth scope tree) (watched Calls.NoneTwice instead depth scope tree) :=
      orderly_carries_over orderly (fun _ once => once) rfl (.inl (Nat.le_refl depth))
        (.inl (LimitLe.refl limit?))
    obtain ⟨_, ⟨fault, same, _⟩ | ran⟩ := carried _ next returned
    · cases same
    · exact ran
  · intro bound? wide
    have carried : CarriesOver (fun _ => True) (.start limit?) (.start bound?)
        (within depth scope tree)
        (watched (fun _ => True) (fun _ => none) (allowance scope (.start bound?)) scope tree) :=
      orderly_carries_over orderly (fun _ _ => trivial) rfl (.inr (size_lt_allowance wide))
        (.inr wide)
    rw [watched_eq_within] at carried
    obtain ⟨_, ⟨fault, same, _⟩ | ran⟩ := carried _ next returned
    · cases same
    · exact ran

/-- Evaluation of a call in a scope where one callable calls another, which calls none. -/
theorem linked_calls_never_recur :
    ∃ value next,
      within 4 .linked (.bareCall "f" .unknown) (.start none) = some (.ok value, next) ∧
      watched Calls.NoneTwice (fun _ => none) 4 .linked (.bareCall "f" .unknown) (.start none) =
        some (.ok value, .start none) ∧
      Scope.linked.callables.size ≤ 2 ∧
      (Tree.bareCall "f" .unknown).evaluate .linked (.start (some 2)) =
        some (.ok value, .start (some 2)) := by
  have size : Scope.linked.callables.size ≤ 2 := by decide +kernel
  have check : ((within 4 .linked (.bareCall "f" .unknown) (.start none)).any fun ran =>
      ran.1.toBool) = true := by decide +kernel
  obtain ⟨⟨outcome, next⟩, ran, ok⟩ := (Option.any_eq_true _ _).mp check
  cases outcome with
  | error fault => cases ok
  | ok value =>
      obtain ⟨watched, evaluated⟩ := returning_evaluation_never_recurs ran
      refine ⟨value, next, ran, watched _, size, evaluated (some 2) ?_⟩
      intro bound same
      cases same
      exact size

end Evaluation

end Reckon
