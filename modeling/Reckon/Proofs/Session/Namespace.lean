import Reckon.Proofs.Scope.Namespace
import Reckon.Proofs.Session.Parallel

/-!
The scopes that statements lead to. A statement defines a callable only with parameters of distinct
names and an expression for its body, and changes a scope in no other way than scopes can be
changed. So both tables stay one namespace, and every callable in it can be called by name.
-/

namespace Reckon

namespace Statement

variable {place : Location}

/-- No parameter has the name of another, or one of those already seen. -/
theorem parameters_distinct (callable : String) (seen : List String) (pieces : List (Piece Tree)) :
    EndsPure (parameters callable place seen pieces)
      (fun found => (found.map (·.name)).Nodup ∧ ∀ name ∈ seen, name ∉ found.map (·.name))
      (fun _ => True) := by
  induction pieces using Piece.induct_groups generalizing seen with
  | nil => exact .ok ⟨List.nodup_nil, fun _ _ member => nomatch member⟩
  | one target => exact .error trivial
  | two target colon => exact .error trivial
  | group target colon declared rest induction =>
      rw [parameters_group]
      split
      · apply EndsPure.of_any.bind
        intro name _
        apply EndsPure.of_any.bind
        intro kind _
        split
        · exact .error trivial
        · next new =>
            apply (induction (name :: seen)).bind
            intro found ⟨distinct, unseen⟩
            refine .ok ⟨?_, ?_⟩
            · exact List.nodup_cons.mpr ⟨unseen name (by simp), distinct⟩
            · intro other member repeated
              rcases List.mem_cons.mp repeated with rfl | later
              · exact new member
              · exact unseen other (List.mem_cons_of_mem _ member) later
      · exact .error trivial

theorem signature_distinct (callable : String) (pieces : List (Piece Tree)) :
    EndsPure (signature callable place pieces) (fun found => (found.2.map (·.name)).Nodup)
      (fun _ => True) := by
  unfold signature
  split
  · split
    · apply EndsPure.of_any.bind
      intro returned _
      split
      · next list _ =>
          apply (parameters_distinct callable [] list.pieces).bind
          intro found ⟨distinct, _⟩
          exact .ok distinct
      · exact .error trivial
    · exact .error trivial
  · exact .error trivial

end Statement

/-- The parameters have distinct names, and the body is an expression. -/
structure Callable.Formed (callable : Callable) : Prop where
  distinct : (callable.parameters.map (·.name)).Nodup
  expression : callable.body.production = .expr

theorem Statement.callable_formed {place : Location} (pieces : List (Piece Tree)) :
    EndsPure (Statement.callable place pieces) Callable.Formed (fun _ => True) := by
  unfold Statement.callable
  split
  · split
    · apply EndsPure.of_any.bind
      intro target _
      split
      · next signed _ =>
          apply (signature_distinct target signed.pieces).bind
          intro ⟨returned, parameters⟩ distinct
          dsimp only
          split
          · next body found =>
              exact .ok ⟨distinct, beq_iff_eq.mp (Option.filter_eq_some_iff.mp found).2⟩
          · exact .error trivial
      · exact .error trivial
    · exact .error trivial
  · exact .error trivial

/-- One namespace, in which every callable is well formed. -/
structure Scope.Formed (scope : Scope) : Prop where
  apart : scope.OneNamespace
  callables : ∀ name callable, scope.callable? name = some callable → callable.Formed

namespace Scope

variable {scope next : Scope}

theorem empty_formed : empty.Formed where
  apart := one_namespace_of_represents empty_represents
  callables _ _ found := nomatch empty_callable?.symm.trans found

theorem Formed.define_variable (formed : scope.Formed) (name : String) (value : Value) :
    (scope.defineVariable name value).Formed where
  apart := by
    obtain ⟨_, represents⟩ := one_namespace_iff.mp formed.apart
    exact one_namespace_of_represents (define_variable_represents represents name value)
  callables other callable found :=
    formed.callables other callable (callable_of_define_variable found)

theorem Formed.bind (formed : scope.Formed) (given : List (String × Value)) :
    (scope.bind given).Formed := by
  induction given generalizing scope with
  | nil => exact formed
  | cons binding given induction => exact induction (formed.define_variable binding.1 binding.2)

theorem Formed.define_callable (formed : scope.Formed) {callable : Callable}
    (new : callable.Formed) : (scope.defineCallable callable).Formed where
  apart := by
    obtain ⟨_, represents⟩ := one_namespace_iff.mp formed.apart
    exact one_namespace_of_represents (define_callable_represents represents callable)
  callables other callable found := by
    rcases callable_of_define_callable found with rfl | before
    · exact new
    · exact formed.callables other callable before

theorem Formed.assign (formed : scope.Formed) {name : String} {value : Value}
    (assigned : scope.assign name value = .ok next) : next.Formed where
  apart := by
    obtain ⟨referents, represents⟩ := one_namespace_iff.mp formed.apart
    rcases assign_represents represents name value with
      ⟨_, refused, _⟩ | ⟨_, _, assigned', _, represented⟩
    · exact nomatch assigned.symm.trans refused
    · cases assigned.symm.trans assigned'
      exact one_namespace_of_represents represented
  callables other callable found :=
    formed.callables other callable (callable_of_assign assigned found)

end Scope

namespace Execution

/-- Every change that a statement makes keeps a scope well formed. -/
theorem sessions_parallel_formed :
    SessionsParallel (· = ·) (· = ·) fun session other =>
      session = other ∧ session.scope.Formed where
  raised := by
    rintro _ _ ⟨_, rfl⟩
    rfl
  values := by
    rintro session _ ⟨rfl, _⟩ name
    rfl
  callables := by
    rintro session _ ⟨rfl, _⟩ name
    rfl
  evaluate := by
    rintro tree other beside session _ ⟨rfl, formed⟩
    cases Tree.eq_of_beside beside
    rw [evaluate]
    cases Tree.evaluate session.scope tree session.calls with
    | none => exact .none
    | some ended =>
        obtain ⟨_ | result, calls⟩ := ended
        · exact .some (.error rfl ⟨rfl, formed⟩)
        · exact .some (.ok rfl ⟨rfl, formed⟩)
  defineVariable := by
    rintro session _ ⟨rfl, formed⟩ name value
    exact ⟨rfl, formed.define_variable name value⟩
  assign := by
    rintro session _ ⟨rfl, formed⟩ name value scope scope' assigned assigned'
    cases assigned.symm.trans assigned'
    exact ⟨rfl, formed.assign assigned⟩
  defineCallable := by
    rintro session _ ⟨rfl, formed⟩ place pieces callable callable' found callables
    cases Callable.eq_of_beside callables
    exact ⟨rfl, formed.define_callable ((Statement.callable_formed pieces).returned _ found)⟩
  writeLine := by
    rintro session _ ⟨rfl, formed⟩ line
    exact ⟨rfl, formed⟩

/-- Programs that fail part of the way included, what is executed keeps a scope well formed. -/
theorem execute_formed {session next : Session} {trees : List Tree}
    {outcome : Except Fault (Option Value)} (formed : session.scope.Formed)
    (ran : session.execute trees = some (outcome, next)) : next.scope.Formed := by
  have same : List.Forall₂ (Tree.Beside (· = ·)) trees trees :=
    List.forall₂_same.mpr fun tree _ => Tree.beside_itself fun _ _ => rfl
  have alike := of_trees_alike sessions_parallel_formed same none session session ⟨rfl, formed⟩
  rw [Session.execute] at ran
  rw [ran] at alike
  cases alike with
  | some ended =>
      cases ended with
      | ok _ kept => exact kept.2
      | error _ kept => exact kept.2

end Execution

namespace Scope

/-- The scopes that programs lead to from the empty one, whatever limit is set and wherever the
output goes. -/
inductive Reached : Scope → Prop where
  | empty : Reached empty
  | executed {scope : Scope} {calls : Calls} {output : Output} {trees : List Tree}
      {outcome : Except Fault (Option Value)} {next : Session} (reached : Reached scope)
      (ran : Session.execute trees ⟨scope, calls, output⟩ = some (outcome, next)) :
      Reached next.scope

theorem Reached.formed {scope : Scope} (reached : scope.Reached) : scope.Formed := by
  induction reached with
  | empty => exact empty_formed
  | executed _ ran formed => exact Execution.execute_formed formed ran

/-- Whatever is done with any number of scopes that are empty at first, they answer as maps from
names to values and callables do. Each then is its map: its tables hold what the map holds and list
it, and no name is in both. The scopes that programs lead to are one namespace as well, and their
callables have parameters of distinct names and expressions for bodies; so it is with the parameters
of a call bound in addition. -/
theorem tables_are_one_namespace :
    (∀ actions, (keeper.fromEmpty actions).2 = (Referents.keeper.fromEmpty actions).2 ∧
      ∀ number, ((keeper.fromEmpty actions).1 number).OneNamespace ∧
        ((keeper.fromEmpty actions).1 number).Represents
          ((Referents.keeper.fromEmpty actions).1 number) ∧
        ((keeper.fromEmpty actions).1 number).Lists
          ((Referents.keeper.fromEmpty actions).1 number)) ∧
    ∀ scope : Scope, scope.Reached → scope.Formed ∧ ∀ given, (scope.bind given).Formed := by
  constructor
  · intro actions
    obtain ⟨answers, represents⟩ := run_represents (fun _ => empty_represents) actions
    exact ⟨answers, fun number => ⟨one_namespace_of_represents (represents number),
      represents number, lists_of_represents (represents number)⟩⟩
  · intro scope reached
    exact ⟨reached.formed, fun given => reached.formed.bind given⟩

/-- A program that gives a variable's name to a callable and then fails in a call of it. -/
theorem failing_call_leaves_one_namespace :
    ∃ trees fault next,
      parse "x: = 2\nx: int (a: int) = a / 0\nx(a = 1)" = .ok trees ∧
      (Session.start .empty (some 8) .empty).execute trees = some (.error fault, next) ∧
      (next.scope.callable? "x").isSome ∧ next.scope.Reached ∧ next.scope.Formed ∧
      (next.scope.bind [("a", .int 1)]).Formed := by
  have check : ((parse "x: = 2\nx: int (a: int) = a / 0\nx(a = 1)").toOption.bind fun trees =>
      (Session.start .empty (some 8) .empty).execute trees).any (fun ended =>
        !ended.1.toBool && (ended.2.scope.callable? "x").isSome) = true := by decide +kernel
  obtain ⟨trees, parsed⟩ : ∃ trees,
      parse "x: = 2\nx: int (a: int) = a / 0\nx(a = 1)" = .ok trees := ⟨_, rfl⟩
  rw [parsed] at check
  change ((Session.start .empty (some 8) .empty).execute trees).any _ = true at check
  cases ran : (Session.start .empty (some 8) .empty).execute trees with
  | none =>
      rw [ran] at check
      cases check
  | some ended =>
      rw [ran] at check
      obtain ⟨fault | value?, next⟩ := ended
      · have reached : next.scope.Reached := .executed .empty ran
        obtain ⟨formed, entered⟩ := tables_are_one_namespace.2 next.scope reached
        exact ⟨trees, fault, next, parsed, ran, check, reached, formed, entered _⟩
      · cases check

end Scope

end Reckon
