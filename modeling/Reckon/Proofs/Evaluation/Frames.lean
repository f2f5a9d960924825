import Reckon.Proofs.Evaluation.Congruence
import Reckon.Proofs.Evaluation.Faults
import Reckon.Proofs.Scope.Bindings

/-!
Frames in place of copied scopes. A call evaluates the body of its callable in the scope of the
caller with the parameters bound in addition. The same comes of leaving the scope as it is and
keeping a frame for every call under way, in which names are looked up, the innermost frame first.
-/

namespace Reckon

/-- A call under way: what is called, and the converted values of its arguments by their names. -/
structure Frame where
  callable : Callable
  given : List (String × Value)

namespace Frame

/-- The name is that of a parameter. -/
def declares (frame : Frame) (name : String) : Bool := (frame.callable.parameter? name).isSome

/-- The value of a parameter. Of several arguments with one name the last counts. -/
def value? (frame : Frame) (name : String) : Option Value := frame.given.reverse.lookup name

end Frame

namespace Scope

/-- What names stand for in a scope behind the frames of the calls under way, the innermost first:
a parameter of the innermost of these calls that has one of the name, or else what the scope says.
A name that is a parameter of any of them is not callable. -/
def behind (scope : Scope) (frames : List Frame) : Names where
  value? name :=
    match frames.find? (·.declares name) with
    | some frame => frame.value? name
    | none => scope.value? name
  callable? name := if frames.any (·.declares name) then none else scope.callable? name

end Scope

namespace Evaluation

end Evaluation

namespace Callable

/-- The values are given for the parameters: for all of them and for nothing else. -/
def Takes (callable : Callable) (given : List (String × Value)) : Prop :=
  ∀ name, name ∈ given.map Prod.fst ↔ (callable.parameter? name).isSome = true

theorem parameter_is_some_iff {callable : Callable} {name : String} :
    (callable.parameter? name).isSome = true ↔ name ∈ callable.parameters.map (·.name) := by
  rw [parameter?, List.find?_isSome]
  simp only [beq_iff_eq, List.mem_map]

end Callable

namespace Scope

variable {scope : Scope} {given : List (String × Value)}

end Scope

namespace Argument

end Argument

namespace Evaluation

variable {names : Names} {enter otherEnter : Callable → List (String × Value) → Evaluation Value}

end Evaluation

end Reckon
