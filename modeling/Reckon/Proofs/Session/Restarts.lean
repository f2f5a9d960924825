import Reckon.Proofs.Evaluation.Recursion
import Reckon.Proofs.Session.Effects
import Reckon.Proofs.Session.Parallel

/-!
What a session holds between programs: its scope, its output and nothing else. An evaluation leaves
the calls under way as it found them and never has more of them than the limit admits. So after any
programs, failing ones included, a session goes on as one that is started anew with its scope.
-/

namespace Reckon

/-- There are no more calls under way than the limit admits. -/
def Calls.WithinLimit (calls : Calls) : Prop := ∀ limit ∈ calls.limit?, calls.depth ≤ limit

instance : DecidablePred Calls.WithinLimit := fun calls =>
  inferInstanceAs (Decidable (∀ limit ∈ calls.limit?, calls.depth ≤ limit))

namespace Calls

variable {calls : Calls} {call : Call}

theorem within_limit_of_room (room : calls.HasRoom) : (calls.inside call).WithinLimit :=
  fun limit limited => room limit limited

end Calls

namespace Evaluation

/-- An evaluation that looks at the calls under way before it begins, and does something else
instead unless they are allowed. -/
def guarded (allowed : Calls → Prop) [DecidablePred allowed] (instead body : Evaluation Value) :
    Evaluation Value := fun calls => if allowed calls then body calls else instead calls

/-- A call that begins keeps within the limit, whatever calls were under way before. -/
theorem during_congr_within_limit (call : Call) {body other : Evaluation Value}
    (same : ∀ calls : Calls, calls.WithinLimit → body calls = other calls) :
    during call body = during call other := by
  funext calls
  rcases calls.push_cases call with room | ⟨limit, _, _, full⟩
  · rw [during_of_room room, during_of_room room, same _ (Calls.within_limit_of_room room)]
  · rw [during_of_refused full, during_of_refused full]

theorem during_guarded (call : Call) (instead body : Evaluation Value) :
    during call (guarded Calls.WithinLimit instead body) = during call body :=
  during_congr_within_limit call fun _ within_ => if_pos within_

/-- An evaluation never gets to a body with more calls under way than the limit admits: what would
be done there makes no difference. -/
theorem watched_within_limit (instead : Evaluation Value) (depth : Nat) :
    watched Calls.WithinLimit instead depth = within depth := by
  induction depth with
  | zero => rfl
  | succ depth induction =>
      funext scope tree
      rw [watched, within_succ]
      apply of_tree_related (equal_congruent fun _ => True) fun _ _ => trivial
      intro name place callable _ _ converted _
      apply during_congr_within_limit
      intro calls within_
      cases converted with
      | error fault => rfl
      | ok bindings =>
          rw [enterConverted, enterConverted, ofExcept, pure_bind, pure_bind, bind_apply,
            bind_apply, if_pos within_, induction]

end Evaluation

namespace Output

/-- The output with a text written behind. -/
def add (output : Output) (text : String) : Output :=
  match output with
  | .kept before => .kept (before ++ text)
  | .discarded => .discarded

theorem add_empty (output : Output) : output.add "" = output := by
  cases output with
  | kept before => rw [add, String.append_empty]
  | discarded => rfl

theorem write_line_add (output : Output) (text line : String) :
    (output.add text).writeLine line = output.add (text ++ line ++ "\n") := by
  cases output with
  | kept before => simp only [add, writeLine, String.append_assoc]
  | discarded => rfl

end Output

/-- The sessions are the same, but that the first had an output before, and the second had none. -/
structure Session.Continues (before : Output) (session other : Session) : Prop where
  scope : session.scope = other.scope
  calls : session.calls = other.calls
  output : ∃ text, other.output = .kept text ∧ session.output = before.add text

namespace Execution

/-- What was written before makes no difference to what is done and written now. -/
theorem sessions_parallel_continuing (before : Output) :
    SessionsParallel (· = ·) (· = ·) (Session.Continues before) where
  raised := by
    rintro _ _ ⟨_, rfl⟩
    rfl
  values kept name := by rw [kept.scope]
  callables kept name := by rw [kept.scope]
  evaluate beside session other kept := by
    rw [Tree.eq_of_beside beside, evaluate, evaluate, kept.scope, kept.calls]
    cases Tree.evaluate other.scope _ other.calls with
    | none => exact .none
    | some ended =>
        obtain ⟨_ | result, calls⟩ := ended
        · exact .some (.error rfl ⟨rfl, rfl, kept.output⟩)
        · exact .some (.ok rfl ⟨rfl, rfl, kept.output⟩)
  defineVariable kept name value := ⟨by rw [kept.scope], kept.calls, kept.output⟩
  assign kept _ _ _ _ assigned assigned' := by
    rw [kept.scope] at assigned
    exact ⟨Except.ok.inj (assigned.symm.trans assigned'), kept.calls, kept.output⟩
  defineCallable kept _ _ _ _ _ callables := by
    refine ⟨?_, kept.calls, kept.output⟩
    rw [kept.scope, Callable.eq_of_beside callables]
  writeLine kept line := by
    obtain ⟨text, written, same⟩ := kept.output
    refine ⟨kept.scope, kept.calls, text ++ line ++ "\n", ?_, ?_⟩
    · rw [written]
      rfl
    · rw [same, Output.write_line_add]

end Execution

namespace Session

/-- The session after some programs, whether or not they fail. -/
def after (session : Session) (programs : List (List Tree)) : Option Session :=
  programs.foldlM (fun session trees => (session.execute trees).map Prod.snd) session

theorem after_calls {session next : Session} {programs : List (List Tree)}
    (ran : session.after programs = some next) : next.calls = session.calls := by
  induction programs generalizing session with
  | nil =>
      cases ran
      rfl
  | cons trees programs induction =>
      obtain ⟨middle, ended, continued⟩ := Option.bind_eq_some_iff.mp ran
      obtain ⟨⟨outcome, _⟩, executed, rfl⟩ := Option.map_eq_some_iff.mp ended
      exact (induction continued).trans (Execution.of_trees_calls executed)

theorem Continues.eq {before : Output} {session other : Session}
    (continues : session.Continues before other) :
    session = { other with output := before.add other.output.text } := by
  obtain ⟨scope, calls, text, written, output⟩ := continues
  cases session
  cases other
  cases scope
  cases calls
  cases written
  cases output
  rfl

/-- A session does what one does that is started with its scope and with the calls under way, and
writes behind what it has written. -/
theorem execute_continues (session : Session) (trees : List Tree) :
    session.execute trees =
      (execute trees ⟨session.scope, session.calls, .empty⟩).map fun (outcome, next) =>
        (outcome, { next with output := session.output.add next.output.text }) := by
  have trees_ : List.Forall₂ (Tree.Beside (· = ·)) trees trees :=
    List.forall₂_same.mpr fun tree _ => Tree.beside_itself fun _ _ => rfl
  have alike := Execution.of_trees_alike (Execution.sessions_parallel_continuing session.output)
    trees_ none session ⟨session.scope, session.calls, .empty⟩
    ⟨rfl, rfl, "", rfl, (Output.add_empty _).symm⟩
  rw [execute, execute]
  generalize Execution.ofTrees none trees session = left at alike ⊢
  generalize Execution.ofTrees none trees ⟨_, _, .empty⟩ = right at alike ⊢
  cases alike with
  | none => rfl
  | some alike =>
      cases alike with
      | ok same kept =>
          rw [same, kept.eq]
          rfl
      | error same kept =>
          rw [same, kept.eq]
          rfl

/-- An evaluation leaves the calls under way as it found them, and under a limit it has an outcome.
It never comes to a body with more calls under way than the limit admits: what would be done there
instead makes no difference. And so nothing lasts in a session but its scope and its output:
whatever is executed next has the outcome, the scope and the added output that it has in a session
started anew with that scope and under that limit. -/
theorem nothing_lasts_but_scope_and_output :
    (∀ scope (tree : Tree) calls outcome next,
      tree.evaluate scope calls = some (outcome, next) → next = calls) ∧
    (∀ scope (tree : Tree) active limit, ∃ outcome,
      tree.evaluate scope ⟨active, some limit⟩ = some (outcome, ⟨active, some limit⟩)) ∧
    (∀ call (instead body : Evaluation Value),
      Evaluation.during call (Evaluation.guarded Calls.WithinLimit instead body) =
        Evaluation.during call body) ∧
    (∀ instead depth scope tree, ∀ calls : Calls, calls.WithinLimit →
      Evaluation.guarded Calls.WithinLimit instead
        (Evaluation.watched Calls.WithinLimit instead depth scope tree) calls =
          Evaluation.within depth scope tree calls) ∧
    ∀ scope limit? output programs session,
      (start scope limit? output).after programs = some session → ∀ trees,
        session.execute trees =
          ((start session.scope limit? .empty).execute trees).map fun (outcome, next) =>
            (outcome, { next with output := session.output.add next.output.text }) := by
  refine ⟨fun _ _ _ _ _ ran => Evaluation.within_restores ran,
    fun scope tree active limit => Evaluation.evaluate_ends rfl,
    fun call instead body => Evaluation.during_guarded call instead body, ?_, ?_⟩
  · intro instead depth scope tree calls within_
    rw [Evaluation.guarded, if_pos within_, Evaluation.watched_within_limit]
  · intro scope limit? output programs session ran trees
    rw [execute_continues, after_calls ran]
    rfl

/-- A session in which calls that would go on for ever have failed. -/
theorem endless_calls_do_not_last :
    ∃ session, (start .endless (some 3) .empty).after [[.bareCall "f" .unknown]] = some session ∧
      Calls.WithinLimit ⟨[⟨"g", .unknown⟩], some 3⟩ ∧
      Evaluation.guarded Calls.WithinLimit (fun _ => none)
        (Evaluation.watched Calls.WithinLimit (fun _ => none) 4 .endless (.bareCall "f" .unknown))
        ⟨[⟨"g", .unknown⟩], some 3⟩ =
          Evaluation.within 4 .endless (.bareCall "f" .unknown) ⟨[⟨"g", .unknown⟩], some 3⟩ ∧
      session.execute [.bareCall "f" .unknown] =
        ((start session.scope (some 3) .empty).execute [.bareCall "f" .unknown]).map
          fun (outcome, next) =>
            (outcome, { next with output := session.output.add next.output.text }) := by
  obtain ⟨_, _, _, bounded, lasting⟩ := nothing_lasts_but_scope_and_output
  obtain ⟨outcome, session, executed⟩ : ∃ outcome next,
      (start .endless (some 3) .empty).execute [.bareCall "f" .unknown] = some (outcome, next) :=
    Execution.of_trees_end none _ rfl
  have ran : (start .endless (some 3) .empty).after [[.bareCall "f" .unknown]] = some session := by
    rw [after, List.foldlM_cons, executed]
    rfl
  have within_ : Calls.WithinLimit ⟨[⟨"g", .unknown⟩], some 3⟩ := by decide
  exact ⟨session, ran, within_, bounded _ 4 .endless (.bareCall "f" .unknown) _ within_,
    lasting _ _ _ _ session ran _⟩

end Session

end Reckon
