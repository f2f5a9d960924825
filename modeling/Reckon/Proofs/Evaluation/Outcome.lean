import Reckon.Session

/-!
How evaluations and executions end. Both take a state along and end with a result or a fault, so
one judgement serves for both: what holds of the state is kept, and what is said of results and of
faults is true whenever there is one.
-/

namespace Reckon

/-- The value that an evaluation ended with. -/
def Evaluation.value? : Option (Except Fault Value × Calls) → Option Value
  | some (.ok value, _) => some value
  | some (.error _, _) => none
  | none => none

/-- From a state that has the property, the program ends in such a state, with a result or a fault
as described, if it ends at all. -/
def Ends {σ α : Type} (keeps : σ → Prop) (program : ExceptT Fault (StateT σ Option) α)
    (returns : α → Prop) (fails : Fault → Prop) : Prop :=
  ∀ state outcome next, keeps state → program state = some (outcome, next) →
    keeps next ∧ (∀ result, outcome = .ok result → returns result) ∧
      ∀ fault, outcome = .error fault → fails fault

/-- The same of what is told without any state. -/
structure EndsPure {α : Type} (outcome : Except Fault α) (returns : α → Prop)
    (fails : Fault → Prop) : Prop where
  returned : ∀ result, outcome = .ok result → returns result
  failed : ∀ fault, outcome = .error fault → fails fault

section

variable {σ α β : Type} {keeps : σ → Prop} {returns : α → Prop} {others : β → Prop}
  {fails : Fault → Prop} {program : ExceptT Fault (StateT σ Option) α}

theorem bind_apply (program : ExceptT Fault (StateT σ Option) α)
    (rest : α → ExceptT Fault (StateT σ Option) β) (state : σ) :
    (program >>= rest) state = match program state with
      | none => none
      | some (.error fault, next) => some (.error fault, next)
      | some (.ok result, next) => rest result next := by
  change (StateT.bind (ExceptT.run program) _ : StateT σ Option _) state = _
  unfold StateT.bind
  change Option.bind (program state) _ = _
  cases program state with
  | none => rfl
  | some ended =>
      obtain ⟨outcome, next⟩ := ended
      cases outcome <;> rfl

/-- One program after the other ends with the fault of the first, or as the second ends. -/
theorem ended_of_bind {rest : α → ExceptT Fault (StateT σ Option) β} {state next : σ}
    {outcome : Except Fault β} (ran : (program >>= rest) state = some (outcome, next)) :
    (∃ fault, program state = some (.error fault, next) ∧ outcome = .error fault) ∨
      ∃ result middle, program state = some (.ok result, middle) ∧
        rest result middle = some (outcome, next) := by
  rw [bind_apply] at ran
  match ended : program state with
  | none =>
      rw [ended] at ran
      cases ran
  | some (.error fault, middle) =>
      rw [ended] at ran
      cases ran
      exact .inl ⟨fault, rfl, rfl⟩
  | some (.ok result, middle) =>
      rw [ended] at ran
      exact .inr ⟨result, middle, rfl, ran⟩

/-- One program after the other ends with a result if the first does and the second from there. -/
theorem bind_eq_ok_iff {rest : α → ExceptT Fault (StateT σ Option) β} {state next : σ}
    {result : β} :
    (program >>= rest) state = some (.ok result, next) ↔
      ∃ first middle, program state = some (.ok first, middle) ∧
        rest first middle = some (.ok result, next) := by
  constructor
  · intro ran
    rcases ended_of_bind ran with ⟨_, _, same⟩ | found
    · cases same
    · exact found
  · rintro ⟨first, middle, ended, continued⟩
    rw [bind_apply, ended]
    exact continued

theorem map_apply (function : α → β) (program : ExceptT Fault (StateT σ Option) α) (state : σ) :
    (function <$> program) state =
      (program state).map fun ended => (ended.1.map function, ended.2) := by
  rw [← bind_pure_comp, bind_apply]
  rcases program state with _ | ⟨_ | _, _⟩ <;> rfl

/-- A program ends as it does before something is made of its result. -/
theorem ended_of_map {function : α → β} {state next : σ} {outcome : Except Fault β}
    (ran : (function <$> program) state = some (outcome, next)) :
    ∃ inner, program state = some (inner, next) ∧ outcome = inner.map function := by
  rw [map_apply] at ran
  obtain ⟨⟨inner, _⟩, ended, same⟩ := Option.map_eq_some_iff.mp ran
  cases same
  exact ⟨inner, ended, rfl⟩

theorem Ends.pure {result : α} (holds : returns result) :
    Ends keeps (Pure.pure result) returns fails := by
  rintro state outcome next kept ⟨⟩
  refine ⟨kept, ?_, ?_⟩
  · rintro result ⟨⟩
    exact holds
  · rintro fault ⟨⟩

theorem Ends.throw {fault : Fault} (fails_ : fails fault) :
    Ends (α := α) keeps (throw fault) returns fails := by
  rintro state outcome next kept ⟨⟩
  refine ⟨kept, ?_, ?_⟩
  · rintro result ⟨⟩
  · rintro fault ⟨⟩
    exact fails_

theorem Ends.bind {rest : α → ExceptT Fault (StateT σ Option) β}
    (first : Ends keeps program returns fails)
    (second : ∀ result, returns result → Ends keeps (rest result) others fails) :
    Ends keeps (program >>= rest) others fails := by
  intro state outcome next kept ran
  rcases ended_of_bind ran with ⟨fault, ended, rfl⟩ | ⟨result, middle, ended, continued⟩
  · obtain ⟨kept, _, failed⟩ := first _ _ _ kept ended
    refine ⟨kept, ?_, ?_⟩
    · rintro result ⟨⟩
    · rintro fault ⟨⟩
      exact failed _ rfl
  · obtain ⟨kept, returned, _⟩ := first _ _ _ kept ended
    exact second result (returned result rfl) _ _ _ kept continued

theorem Ends.weaken {weaker : Fault → Prop} (ends : Ends keeps program returns fails)
    (implied : ∀ fault, fails fault → weaker fault) : Ends keeps program returns weaker := by
  intro state outcome next kept ran
  obtain ⟨kept, returned, failed⟩ := ends state outcome next kept ran
  exact ⟨kept, returned, fun fault failing => implied fault (failed fault failing)⟩

/-- What is done with a result matters only for the results and states there can be. -/
theorem Ends.bind_congr {rest other : α → ExceptT Fault (StateT σ Option) β}
    (ends : Ends keeps program returns fails) {state : σ} (kept : keeps state)
    (same : ∀ result next, returns result → keeps next → rest result next = other result next) :
    (program >>= rest) state = (program >>= other) state := by
  rw [bind_apply, bind_apply]
  match ended : program state with
  | none => rfl
  | some (.error fault, next) => rfl
  | some (.ok result, next) =>
      obtain ⟨kept, returned, _⟩ := ends state _ next kept ended
      exact same result next (returned result rfl) kept

theorem Ends.of_any : Ends (fun _ => True) program (fun _ => True) (fun _ => True) :=
  fun _ _ _ _ _ => ⟨trivial, fun _ _ => trivial, fun _ _ => trivial⟩

theorem Ends.map {function : α → β} (first : Ends keeps program returns fails)
    (mapped : ∀ result, returns result → others (function result)) :
    Ends keeps (function <$> program) others fails := by
  rw [← bind_pure_comp]
  exact first.bind fun result holds => .pure (mapped result holds)

theorem Ends.ofExcept {outcome : Except Fault α} {keeps : Calls → Prop}
    (ends : EndsPure outcome returns fails) :
    Ends keeps (Evaluation.ofExcept outcome) returns fails := by
  cases outcome with
  | ok result => exact .pure (ends.returned result rfl)
  | error fault => exact .throw (ends.failed fault rfl)

theorem Ends.told {outcome : Except Fault α} {keeps : Session → Prop}
    (ends : EndsPure outcome returns fails) :
    Ends keeps (Execution.ofExcept outcome) returns fails := by
  cases outcome with
  | ok result => exact .pure (ends.returned result rfl)
  | error fault => exact .throw (ends.failed fault rfl)

theorem Ends.get {keeps : Session → Prop} {fails : Fault → Prop} :
    Ends keeps (MonadState.get : Execution Session) keeps fails := by
  rintro session outcome next kept ⟨⟩
  refine ⟨kept, ?_, ?_⟩
  · rintro result ⟨⟩
    exact kept
  · rintro fault ⟨⟩

theorem Ends.modify {keeps : Session → Prop} {fails : Fault → Prop} {change : Session → Session}
    (changed : ∀ session, keeps session → keeps (change session)) :
    Ends keeps (modify change : Execution Unit) (fun _ => True) fails := by
  rintro session outcome next kept ⟨⟩
  refine ⟨changed session kept, fun _ _ => trivial, ?_⟩
  rintro fault ⟨⟩

theorem EndsPure.ok {result : α} (holds : returns result) :
    EndsPure (.ok result) returns fails := by
  constructor
  · rintro result ⟨⟩
    exact holds
  · rintro fault ⟨⟩

theorem EndsPure.error {fault : Fault} (fails_ : fails fault) :
    EndsPure (.error fault : Except Fault α) returns fails := by
  constructor
  · rintro result ⟨⟩
  · rintro fault ⟨⟩
    exact fails_

theorem EndsPure.of_any {outcome : Except Fault α} :
    EndsPure outcome (fun _ => True) (fun _ => True) :=
  ⟨fun _ _ => trivial, fun _ _ => trivial⟩

theorem EndsPure.bind {outcome : Except Fault α} {rest : α → Except Fault β}
    (first : EndsPure outcome returns fails)
    (second : ∀ result, returns result → EndsPure (rest result) others fails) :
    EndsPure (outcome >>= rest) others fails := by
  cases outcome with
  | ok result => exact second result (first.returned result rfl)
  | error fault => exact .error (first.failed fault rfl)

end

end Reckon
