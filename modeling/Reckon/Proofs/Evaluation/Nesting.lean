import Reckon.Proofs.Evaluation.Calls
import Reckon.Proofs.Evaluation.Congruence

/-!
How calls nest. An evaluation leaves the calls under way as it found them, and what it comes to
carries over to an evaluation that follows calls further or admits more.
-/

namespace Reckon

namespace Evaluation

variable {calls others : Calls} {call : Call}

/-- The first evaluation leaves the calls under way as they were, and what it comes to the second
comes to from its own calls, unless it is a fault that is excused. -/
def CarriesOver (excused : Fault → Prop) (calls others : Calls) {α : Type}
    (first second : Evaluation α) : Prop :=
  ∀ outcome next, first calls = some (outcome, next) → next = calls ∧
    ((∃ fault, outcome = .error fault ∧ excused fault) ∨ second others = some (outcome, others))

variable {excused : Fault → Prop} {first second : Evaluation Value}

theorem carries_over_congruent (excused : Fault → Prop) (calls others : Calls)
    (places : Location → Prop) : Congruent (CarriesOver excused calls others) places where
  pure result := by
    intro outcome next ran
    cases ran
    exact ⟨rfl, .inr rfl⟩
  throw _ := by
    intro outcome next ran
    cases ran
    exact ⟨rfl, .inr rfl⟩
  bind := by
    intro α β left right leftRest rightRest first rest outcome next ran
    rcases ended_of_bind ran with ⟨fault, ended, rfl⟩ | ⟨result, middle, ended, continued⟩
    · obtain ⟨kept, ⟨_, same, isExcused⟩ | carried⟩ := first _ _ ended
      · cases same
        exact ⟨kept, .inl ⟨fault, rfl, isExcused⟩⟩
      · rw [bind_apply, carried]
        exact ⟨kept, .inr rfl⟩
    · obtain ⟨rfl, ⟨_, same, _⟩ | carried⟩ := first _ _ ended
      · cases same
      · rw [bind_apply, carried]
        exact rest result outcome next continued

/-- What a call comes to carries over if what happens in it does. -/
theorem carries_over_during
    (noted : ∀ fault note, excused fault → excused (fault.withNote note))
    (active : others.active = calls.active)
    (refused : (∀ limit, excused (Calls.refusal call limit)) ∨ others.limit? = calls.limit?)
    (room : calls.HasRoom → others.HasRoom)
    (inner : calls.HasRoom →
      CarriesOver excused (calls.inside call) (others.inside call) first second) :
    CarriesOver excused calls others (during call first) (during call second) := by
  intro outcome next ran
  rcases calls.push_cases call with admitted | ⟨limit, _, _, full⟩
  · rw [during_of_room admitted] at ran
    rw [during_of_room (room admitted)]
    obtain ⟨⟨within, left⟩, ended, same⟩ := Option.map_eq_some_iff.mp ran
    cases same
    obtain ⟨rfl, ⟨fault, rfl, isExcused⟩ | carried⟩ := inner admitted _ _ ended
    · refine ⟨rfl, .inl ⟨_, rfl, ?_⟩⟩
      split
      · exact noted _ _ isExcused
      · exact isExcused
    · have alike : leaving others call within = leaving calls call within := by
        rw [leaving, leaving, Calls.isEmpty, Calls.isEmpty, active]
      rw [carried, Option.map_some]
      exact ⟨rfl, .inr (congrArg (fun outcome => some (outcome, others)) alike)⟩
  · rw [during_of_refused full] at ran
    cases ran
    rcases refused with isExcused | limits
    · exact ⟨rfl, .inl ⟨_, rfl, isExcused limit⟩⟩
    · obtain rfl := Calls.eq_of_same active limits
      exact ⟨rfl, .inr (during_of_refused full)⟩

/-- What a tree comes to carries over if what its calls enter does. -/
theorem of_tree_carries_over {names : Names} {tree : Tree}
    {enter otherEnter : Callable → List (String × Value) → Evaluation Value}
    (noted : ∀ fault note, excused fault → excused (fault.withNote note))
    (active : others.active = calls.active)
    (refused : (∀ call limit, excused (Calls.refusal call limit)) ∨ others.limit? = calls.limit?)
    (room : ∀ name place callable, tree.CallsAt name place →
      names.callable? name = some callable → calls.HasRoom → others.HasRoom)
    (entered : ∀ name place callable bindings, tree.CallsAt name place →
      names.callable? name = some callable → calls.HasRoom →
      CarriesOver excused (calls.inside ⟨name, place⟩) (others.inside ⟨name, place⟩)
        (enter callable bindings) (otherEnter callable bindings)) :
    CarriesOver excused calls others (ofTree names enter tree) (ofTree names otherEnter tree) := by
  apply of_tree_related (carries_over_congruent excused calls others fun _ => True)
  · exact fun _ _ => trivial
  · intro name place callable called found converted ends
    apply carries_over_during noted active (refused.imp (fun isExcused => isExcused _) id)
      (room name place callable called found)
    intro admitted
    apply enter_converted_related (carries_over_congruent excused _ _ fun _ => True) trivial ends
    intro bindings
    exact entered name place callable bindings called found admitted

end Evaluation

/-- The second limit admits as many calls as the first. -/
def LimitLe (first second : Option Nat) : Prop :=
  ∀ most, second = some most → ∃ least, first = some least ∧ least ≤ most

theorem LimitLe.refl (limit? : Option Nat) : LimitLe limit? limit? :=
  fun most limited => ⟨most, limited, Nat.le_refl most⟩

namespace Evaluation

variable {calls others : Calls} {excused : Fault → Prop}

theorem within_succ (depth : Nat) (scope : Scope) (tree : Tree) :
    within (depth + 1) scope tree = ofTree scope.names
      (fun callable bindings => within depth (scope.bind bindings) callable.body) tree := rfl

/-- What an evaluation comes to carries over to one that follows calls as deep or deeper and admits
as many or more. -/
theorem within_carries_over {depth deeper : Nat} {scope : Scope} {tree : Tree}
    (noted : ∀ fault note, excused fault → excused (fault.withNote note))
    (active : others.active = calls.active) (limits : LimitLe calls.limit? others.limit?)
    (refused : (∀ call limit, excused (Calls.refusal call limit)) ∨ others.limit? = calls.limit?)
    (depths : depth ≤ deeper) :
    CarriesOver excused calls others (within depth scope tree) (within deeper scope tree) := by
  induction depth generalizing deeper scope tree calls others with
  | zero =>
      intro outcome next ran
      cases ran
  | succ depth induction =>
      obtain ⟨further, rfl⟩ := Nat.exists_eq_add_of_lt depths
      apply of_tree_carries_over noted active refused
      · intro _ _ _ _ _ room most limited
        obtain ⟨least, found, ordered⟩ := limits most limited
        have admitted := room least found
        rw [Calls.depth, active]
        exact Nat.lt_of_lt_of_le admitted ordered
      · intro name place callable bindings _ _ _
        apply induction
        · rw [Calls.inside_active, Calls.inside_active, active]
        · exact limits
        · exact refused
        · exact Nat.le_add_right depth further

/-- An evaluation leaves the calls under way as it found them. -/
theorem within_restores {depth : Nat} {scope : Scope} {tree : Tree} {outcome : Except Fault Value}
    {next : Calls} (ran : within depth scope tree calls = some (outcome, next)) : next = calls := by
  have carried : CarriesOver (fun _ => False) calls calls (within depth scope tree)
      (within depth scope tree) :=
    within_carries_over (fun _ _ => id) rfl (LimitLe.refl _) (.inr rfl) (Nat.le_refl depth)
  exact (carried outcome next ran).1

/-- Following calls deeper changes nothing once there is an outcome. -/
theorem within_deeper {depth deeper : Nat} {scope : Scope} {tree : Tree}
    {outcome : Except Fault Value} {next : Calls} (depths : depth ≤ deeper)
    (ran : within depth scope tree calls = some (outcome, next)) :
    within deeper scope tree calls = some (outcome, next) := by
  have carried : CarriesOver (fun _ => False) calls calls (within depth scope tree)
      (within deeper scope tree) :=
    within_carries_over (fun _ _ => id) rfl (LimitLe.refl _) (.inr rfl) depths
  obtain ⟨rfl, ⟨_, _, never⟩ | same⟩ := carried outcome next ran
  · exact never.elim
  · exact same

end Evaluation

end Reckon
