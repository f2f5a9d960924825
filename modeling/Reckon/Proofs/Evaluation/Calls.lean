import Reckon.Proofs.Evaluation.Outcome

/-!
The calls under way. A call is refused for their number, or it is one of them until it is over; then
they are what they were before, and a fault that leaves the outermost call has one note more.
-/

namespace Reckon

namespace Calls

variable {calls : Calls} {call : Call}

/-- The limit, if there is one, admits one more call. -/
def HasRoom (calls : Calls) : Prop :=
  ∀ limit, calls.limit? = some limit → calls.depth < limit

/-- The calls under way during one more call. -/
def inside (calls : Calls) (call : Call) : Calls := { calls with active := call :: calls.active }

/-- The fault that refuses a call. -/
def refusal (call : Call) (limit : Nat) : Fault :=
  (Fault.of (.recursionLimit call.name limit)).locate call.location

@[simp] theorem inside_depth : (calls.inside call).depth = calls.depth + 1 := rfl

@[simp] theorem inside_limit : (calls.inside call).limit? = calls.limit? := rfl

@[simp] theorem inside_active : (calls.inside call).active = call :: calls.active := rfl

theorem eq_of_same {others : Calls} (active : others.active = calls.active)
    (limits : others.limit? = calls.limit?) : others = calls := by
  obtain ⟨_, _⟩ := calls
  cases active
  cases limits
  rfl

theorem push_of_room (room : calls.HasRoom) : calls.push call = .ok (calls.inside call) := by
  unfold push
  split
  · next limit limited =>
      have admitted := room limit limited
      rw [if_neg (Nat.not_le.mpr admitted), inside]
  · rfl

/-- A call is admitted or refused. -/
theorem push_cases (calls : Calls) (call : Call) : calls.HasRoom ∨
    ∃ limit, calls.limit? = some limit ∧ limit ≤ calls.depth ∧
      calls.push call = .error (refusal call limit) := by
  cases limited : calls.limit? with
  | none =>
      left
      intro limit same
      rw [limited] at same
      cases same
  | some limit =>
      by_cases full : limit ≤ calls.depth
      · right
        refine ⟨limit, rfl, full, ?_⟩
        rw [push, limited]
        exact if_pos full
      · left
        intro other same
        rw [limited] at same
        cases same
        exact Nat.lt_of_not_le full

end Calls

namespace Evaluation

variable {calls : Calls} {call : Call} {body : Evaluation Value}

/-- What becomes of an outcome when a call is over: a fault that leaves the outermost call says
which call that was. -/
def leaving (calls : Calls) (call : Call) (outcome : Except Fault Value) : Except Fault Value :=
  outcome.mapError fun fault => if calls.isEmpty then fault.withNote call.note else fault

theorem during_of_room (room : calls.HasRoom) :
    during call body calls = (body (calls.inside call)).map fun (outcome, left) =>
      (leaving left.pop call outcome, left.pop) := by
  unfold during
  rw [Calls.push_of_room room]
  dsimp only
  cases body (calls.inside call) <;> rfl

theorem during_of_refused {limit : Nat}
    (refused : calls.push call = .error (Calls.refusal call limit)) :
    during call body calls = some (.error (Calls.refusal call limit), calls) := by
  rw [during, refused]

/-- What is kept of the calls under way and said of faults around a call: a call that is not refused
adds a note at most. -/
theorem during_ends {keeps : Calls → Prop} {fails : Fault → Prop}
    (begun : ∀ calls, keeps calls → keeps (calls.inside call))
    (done : ∀ calls, keeps calls → keeps calls.pop)
    (ends : Ends keeps body (fun _ => True) fails)
    (refused : ∀ calls limit, keeps calls → calls.limit? = some limit →
      fails (Calls.refusal call limit))
    (noted : ∀ fault note, fails fault → fails (fault.withNote note)) :
    Ends keeps (during call body) (fun _ => True) fails := by
  intro calls outcome next kept ran
  rcases calls.push_cases call with room | ⟨limit, limited, _, full⟩
  · rw [during_of_room room] at ran
    obtain ⟨⟨within, left⟩, ended, same⟩ := Option.map_eq_some_iff.mp ran
    cases same
    obtain ⟨keptInside, _, failed⟩ := ends _ _ _ (begun calls kept) ended
    refine ⟨done left keptInside, fun _ _ => trivial, ?_⟩
    intro fault failing
    cases within with
    | ok value => cases failing
    | error inner =>
        cases failing
        split
        · exact noted inner call.note (failed inner rfl)
        · exact failed inner rfl
  · rw [during_of_refused full] at ran
    cases ran
    refine ⟨kept, fun _ _ => trivial, ?_⟩
    intro fault failing
    cases failing
    exact refused calls limit kept limited

end Evaluation

end Reckon
