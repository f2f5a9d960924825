import Reckon.Proofs.Evaluation.Locations
import Reckon.Proofs.Grammar.Concatenation
import Reckon.Proofs.Session.Effects
import Reckon.Proofs.Session.Parallel

/-!
Programs run as a whole and line by line. What stands behind whole lines is read to the same trees
further on, and no location reaches a value, a binding or a printed line. So it makes no difference
whether programs are run in one go or one after the other in the same session.
-/

namespace Reckon

/-- The two sessions are the same apart from the locations of callables and of calls under way. -/
structure Session.Alike (session other : Session) : Prop where
  scope : session.scope.Alike other.scope
  calls : session.calls.Alike other.calls
  output : session.output = other.output

theorem Fault.Alike.refl (fault : Fault) : fault.Alike fault := ⟨rfl, rfl, rfl⟩

theorem Session.Alike.refl (session : Session) : session.Alike session where
  scope := {
    values := fun _ => rfl
    callables := fun name => by
      cases session.scope.callable? name with
      | none => exact .none
      | some callable => exact .some ⟨rfl, rfl, rfl, rfl⟩ }
  calls := ⟨rfl, rfl⟩
  output := rfl

theorem Scope.assign_alike {scope other next next' : Scope} {name : String} {value : Value}
    (alike : scope.Alike other) (assigned : scope.assign name value = .ok next)
    (assigned' : other.assign name value = .ok next') : next.Alike next' where
  values found := by
    rw [assign_value? assigned, assign_value? assigned', alike.values]
  callables found := by
    rw [assign_callable? assigned, assign_callable? assigned']
    exact alike.callables found

namespace Execution

/-- Sessions that are the same apart from locations stay so. -/
theorem sessions_parallel_anywhere :
    SessionsParallel Location.Anywhere Fault.Alike Session.Alike where
  raised := Fault.alike_of_raised
  values alike := alike.scope.values
  callables alike := Scope.callable_is_some alike.scope
  evaluate beside session other alike := by
    have ended := Evaluation.evaluate_alike alike.scope (Tree.alike_of_beside beside) _ _
      alike.calls
    rw [evaluate, evaluate]
    generalize Tree.evaluate session.scope _ session.calls = left at ended ⊢
    generalize Tree.evaluate other.scope _ other.calls = right at ended ⊢
    cases ended with
    | none => exact .none
    | some ended =>
        cases ended with
        | ok same calls => exact .some (.ok same ⟨alike.scope, calls, alike.output⟩)
        | error faults calls => exact .some (.error faults ⟨alike.scope, calls, alike.output⟩)
  defineVariable alike name value :=
    ⟨Scope.define_variable_alike alike.scope name value, alike.calls, alike.output⟩
  assign alike _ _ _ _ assigned assigned' :=
    ⟨Scope.assign_alike alike.scope assigned assigned', alike.calls, alike.output⟩
  defineCallable alike _ _ _ _ _ callables :=
    ⟨Scope.define_callable_alike alike.scope ⟨callables.signature.name,
      callables.signature.returns, callables.signature.parameters,
      Tree.alike_of_beside callables.body⟩, alike.calls, alike.output⟩
  writeLine alike line := ⟨alike.scope, alike.calls, by rw [alike.output]⟩

/-- The value from before counts where no statement has one. -/
theorem of_trees_last (last : Option Value) (trees : List Tree) (session : Session) :
    ofTrees last trees session = (ofTrees none trees session).map fun (outcome, next) =>
      (outcome.map fun later? => later?.orElse fun _ => last, next) := by
  induction trees generalizing last session with
  | nil => rfl
  | cons tree trees induction =>
      rw [ofTrees, ofTrees, bind_apply, bind_apply]
      rcases ofTree tree session with _ | ⟨_ | value?, next⟩
      · rfl
      · rfl
      · dsimp only
        rw [induction, induction (value?.orElse fun _ => none), Option.map_map]
        congr 1
        funext ended
        obtain ⟨outcome, final⟩ := ended
        rcases outcome with _ | _ | _ <;> cases value? <;> rfl

end Execution

namespace Session

/-- Runs two programs one after the other, the second only if the first succeeds, for the last value
that one of them has. -/
def runInTurn (first second : String) (session : Session) :
    Option (Except Failure (Option Value) × Session) :=
  match session.run first with
  | none => none
  | some (.error failure, between) => some (.error failure, between)
  | some (.ok value?, between) => (between.run second).map fun (result, after) =>
      (result.map fun later? => later?.orElse fun _ => value?, after)

/-- Two runs end with the same value, or with faults that are the same apart from locations, and
with sessions that are. -/
inductive RunsAlike : Except Failure (Option Value) × Session →
    Except Failure (Option Value) × Session → Prop where
  | value (value? : Option Value) {session other : Session} (alike : session.Alike other) :
      RunsAlike (.ok value?, session) (.ok value?, other)
  | fault {fault fault' : Fault} {session other : Session} (faults : fault.Alike fault')
      (alike : session.Alike other) :
      RunsAlike (.error (.faulty fault), session) (.error (.faulty fault'), other)

section

variable {first second : String} {trees others : List Tree}
  (whole : Text.WholeLines first.toList) (parsed : parse first = .ok trees)
  (parsed' : parse second = .ok others)

include whole parsed parsed'

/-- What stands behind whole lines is executed as it would be alone, but for locations. -/
theorem run_append_alike (fits : Text.byteSize (first ++ second).toList ≤ Span.maxOffset)
    (session : Session) :
    Option.Rel RunsAlike (session.run (first ++ second)) (session.runInTurn first second) := by
  obtain ⟨_, again, joined⟩ | ⟨_, failed, _⟩ := parse_behind_whole_lines whole fits parsed
  case inr => cases parsed'.symm.trans failed
  cases parsed'.symm.trans again
  simp only [run, joined, runInTurn, parsed, parsed', execute]
  rw [Execution.of_trees_append, bind_apply]
  cases Execution.ofTrees none trees session with
  | none => exact .none
  | some ended =>
      obtain ⟨_ | value?, between⟩ := ended
      · exact .some (.fault (.refl _) (.refl _))
      · have moved : List.Forall₂ (Tree.Beside Location.Anywhere)
            (others.map (Tree.moved (.over first.toList))) others := by
          rw [List.forall₂_map_left_iff, List.forall₂_same]
          exact fun tree _ => Tree.beside_of_alike (Tree.moved_alike _ tree)
        have alike := Execution.of_trees_alike Execution.sessions_parallel_anywhere moved value?
          between between (.refl between)
        rw [Execution.of_trees_last value? others] at alike
        dsimp only [Option.map_some, Except.mapError]
        generalize Execution.ofTrees value? _ between = left at alike ⊢
        generalize Execution.ofTrees none others between = right at alike ⊢
        rcases right with _ | ⟨_ | later?, after⟩
        · cases alike
          exact .none
        · rcases alike with @⟨_, _, ⟨⟩ | ⟨faults, kept⟩⟩
          exact .some (.fault faults kept)
        · rcases alike with @⟨_, _, ⟨same, kept⟩⟩
          cases same
          exact .some (.value _ kept)

/-- Two programs that are read apart from each other are refused in one go if spans do not reach
over both. -/
theorem run_append_beyond (beyond : Span.maxOffset < Text.byteSize (first ++ second).toList)
    (session : Session) : ∃ error, error.code = .sourceTooLarge ∧
      session.run (first ++ second) = some (.error (.unreadable error), session) := by
  obtain ⟨_, scans, _⟩ := parse_eq_ok_iff.mp parsed
  obtain ⟨_, scans', _⟩ := parse_eq_ok_iff.mp parsed'
  obtain ⟨_, _, _, _, _, ⟨_, _, joined⟩ | ⟨_, _, failed, _⟩⟩ :=
    unbounded_append whole (tokens_eq_ok_iff.mp scans).1 second
  · obtain ⟨error, refused, code⟩ := parse_of_oversized joined beyond
    exact ⟨error, code, run_of_parse_error refused session⟩
  · cases (tokens_eq_ok_iff.mp scans').1.symm.trans failed

/-- Two programs of which the first is whole lines do the same in one go as one after the other, if
spans reach over both: they end with the same value, or with faults that are the same apart from
locations, and with sessions that are the same apart from locations. Under a limit on calls they do
end. If spans do not reach over both, one go is refused for its size and leaves the session as it
is. -/
theorem run_in_one_go (session : Session) :
    (Text.byteSize (first ++ second).toList ≤ Span.maxOffset →
      Option.Rel RunsAlike (session.run (first ++ second)) (session.runInTurn first second) ∧
        ∀ limit, session.calls.limit? = some limit →
          (session.run (first ++ second)).isSome = true) ∧
    (Span.maxOffset < Text.byteSize (first ++ second).toList →
      ∃ error, error.code = .sourceTooLarge ∧
        session.run (first ++ second) = some (.error (.unreadable error), session)) := by
  refine ⟨fun fits => ⟨run_append_alike whole parsed parsed' fits session, ?_⟩,
    fun beyond => run_append_beyond whole parsed parsed' beyond session⟩
  intro limit limited
  obtain ⟨_, _, joined⟩ | ⟨_, failed, _⟩ := parse_behind_whole_lines whole fits parsed
  · obtain ⟨outcome, next, ended⟩ := Execution.of_trees_end none _ limited
    rw [run, joined]
    dsimp only
    rw [execute, ended]
    rfl
  · cases parsed'.symm.trans failed

end

/-- A definition and a call that fails inside it, two lines further on in one of the runs. -/
theorem run_failing_call_in_one_go :
    Text.WholeLines "## f ##\nf: int (x: int) = x / 0\n".toList ∧ ∃ trees others,
      parse "## f ##\nf: int (x: int) = x / 0\n" = .ok trees ∧ parse "f(x = 1)" = .ok others ∧
      Option.Rel RunsAlike
        ((start .empty (some 8) .empty).run
          ("## f ##\nf: int (x: int) = x / 0\n" ++ "f(x = 1)"))
        ((start .empty (some 8) .empty).runInTurn "## f ##\nf: int (x: int) = x / 0\n"
          "f(x = 1)") := by
  have whole : Text.WholeLines "## f ##\nf: int (x: int) = x / 0\n".toList := by
    simp [Text.WholeLines]
  obtain ⟨trees, parsed⟩ : ∃ trees, parse "## f ##\nf: int (x: int) = x / 0\n" = .ok trees :=
    ⟨_, rfl⟩
  obtain ⟨others, parsed'⟩ : ∃ others, parse "f(x = 1)" = .ok others := ⟨_, rfl⟩
  exact ⟨whole, trees, others, parsed, parsed',
    ((run_in_one_go whole parsed parsed' (start .empty (some 8) .empty)).1 (by decide)).1⟩

/-- A newline and as many blanks behind it as spans reach over are read apart from each other. -/
theorem run_longest_blanks {gap : List Char} (blank : ∀ char ∈ gap, Scan.isBlank char = true)
    (size : Text.byteSize gap = Span.maxOffset) (session : Session) :
    ∃ trees error, parse "\n" = .ok trees ∧ parse (String.ofList gap) = .ok [] ∧
      session.runInTurn "\n" (String.ofList gap) = some (.ok none, session) ∧
      error.code = .sourceTooLarge ∧
      session.run ("\n" ++ String.ofList gap) = some (.error (.unreadable error), session) := by
  obtain ⟨trees, parsed, ran⟩ : ∃ trees, parse "\n" = .ok trees ∧
      session.run "\n" = some (.ok none, session) := ⟨_, rfl, rfl⟩
  have skipped := Scan.unbounded_from_blanks .start [] [] blank
  rw [List.append_nil] at skipped
  have unbounded : unboundedTokens (String.ofList gap) =
      .ok [⟨.eof, "", (Place.start.afterAll gap).upTo (Place.start.afterAll gap)⟩] := by
    rw [unboundedTokens, String.toList_ofList, skipped]
    rfl
  have scans := tokens_of_unbounded unbounded (by rw [String.toList_ofList, size])
  have parsed' : parse (String.ofList gap) = .ok [] := parse_eq_ok_iff.mpr ⟨_, scans, rfl⟩
  have beyond : Span.maxOffset < Text.byteSize ("\n" ++ String.ofList gap).toList := by
    rw [String.toList_append, Text.byte_size_append, @String.toList_ofList gap, size]
    exact Nat.lt_add_of_pos_left (by decide)
  obtain ⟨error, code, refused⟩ := run_append_beyond (by simp [Text.WholeLines]) parsed parsed'
    beyond session
  refine ⟨trees, error, parsed, parsed', ?_, code, refused⟩
  rw [runInTurn, ran]
  dsimp only
  rw [run, parsed']
  rfl

theorem longest_blanks_do_not_run_in_one_go :
    Text.WholeLines "\n".toList ∧ ∃ trees error, parse "\n" = .ok trees ∧
      parse (String.ofList (List.replicate Span.maxOffset ' ')) = .ok [] ∧
      (start .empty (some 8) .empty).runInTurn "\n"
        (String.ofList (List.replicate Span.maxOffset ' ')) =
          some (.ok none, start .empty (some 8) .empty) ∧
      error.code = .sourceTooLarge ∧
      (start .empty (some 8) .empty).run
        ("\n" ++ String.ofList (List.replicate Span.maxOffset ' ')) =
          some (.error (.unreadable error), start .empty (some 8) .empty) := by
  refine ⟨by simp [Text.WholeLines], run_longest_blanks ?_ ?_ (start .empty (some 8) .empty)⟩
  · intro char member
    rw [List.eq_of_mem_replicate member]
    rfl
  · rw [Text.byte_size_replicate]
    decide

end Session

end Reckon
