import Mathlib.Data.List.Perm.Basic
import Reckon.Proofs.Evaluation.Frames
import Reckon.Proofs.Evaluation.Nesting

/-!
Calls with arguments. What the pieces of a call give to which name is told without evaluating
anything; then a call compares the names with the parameters, and if they match it evaluates the
expressions, converts their values and enters the body. So a call has a value exactly if the names
match, every expression has a value that its parameter takes, one more call is admitted, and the
body has a value.
-/

namespace Reckon

namespace Tree

/-- Groups of a name, a sign and an expression, each with or without a comma behind it, that give
the names these expressions. -/
inductive Gives : List (Piece Tree) → List (String × Tree) → Prop where
  | nil : Gives [] []
  | group {label value : Tree} {name : String} {rest : List (Piece Tree)}
      {given : List (String × Tree)} (named : label.name? = some name)
      (isExpr : value.production = .expr) (others : Gives rest given) :
      Gives (.tree label :: .token "=" :: .tree value :: rest) ((name, value) :: given)
  | listed {label value : Tree} {name : String} {rest : List (Piece Tree)}
      {given : List (String × Tree)} (named : label.name? = some name)
      (isExpr : value.production = .expr) (others : Gives rest given) :
      Gives (.tree label :: .token "=" :: .tree value :: .token "," :: rest)
        ((name, value) :: given)

/-- The tree is a call of the name and gives names their expressions, in this order. -/
inductive IsCallOf : Tree → String → List (String × Tree) → Prop where
  | call {callee : Tree} {name : String} {groups : List (Piece Tree)}
      {given : List (String × Tree)} {listPlace place : Location}
      (named : callee.name? = some name) (gives : Gives groups given) :
      IsCallOf (.node .call [.tree callee, .token "(", .tree (.node .arguments groups listPlace),
        .token ")"] place) name given

end Tree

namespace Callable

def parameterNames (callable : Callable) : List String := callable.parameters.map (·.name)

/-- The parameters that are not given, in the order they are declared in. -/
def missing (callable : Callable) (given : List String) : List String :=
  callable.parameterNames.filter (· ∉ given)

/-- What is given beside the parameters, in the order it is written in. -/
def surplus (callable : Callable) (given : List String) : List String :=
  given.filter (· ∉ callable.parameterNames)

/-- The fault of a call at the place whose arguments have the names. -/
def mismatch (callable : Callable) (given : List String) (place : Location) : Fault :=
  (Fault.of (.argumentMismatch callable.name (callable.missing given)
    (callable.surplus given))).locate place

variable {callable : Callable} {given : List String}

/-- All parameters are given and nothing else is. -/
theorem nothing_amiss_iff : (callable.missing given = [] ∧ callable.surplus given = []) ↔
    ∀ name, name ∈ given ↔ name ∈ callable.parameterNames := by
  simp only [missing, surplus, List.filter_eq_nil_iff, decide_eq_true_eq, not_not]
  exact ⟨fun complete name => ⟨complete.2 name, complete.1 name⟩,
    fun same => ⟨fun name => (same name).mpr, fun name => (same name).mp⟩⟩

theorem nothing_amiss_iff_perm (distinct : callable.parameterNames.Nodup)
    (distinctGiven : given.Nodup) :
    (callable.missing given = [] ∧ callable.surplus given = []) ↔
      given.Perm callable.parameterNames := by
  rw [nothing_amiss_iff, List.perm_ext_iff_of_nodup distinctGiven distinct]

end Callable

namespace Argument

/-- The argument that gives a name its expression, together with what that does. -/
def given (value : Tree → Evaluation Value) (argument : String × Tree) : Argument :=
  ⟨argument.1, argument.2, value argument.2⟩

variable {callable : Callable} {arguments : List Argument} {place : Location}

theorem check_eq : check callable arguments place =
    if callable.missing (arguments.map (·.name)) = [] ∧
        callable.surplus (arguments.map (·.name)) = [] then .ok ()
    else .error (callable.mismatch (arguments.map (·.name)) place) := by
  have missing : (callable.parameters.map (·.name)).filter
      (fun name => !arguments.any (·.name == name)) =
        callable.missing (arguments.map (·.name)) := by
    apply List.filter_congr
    intro name _
    rw [Bool.eq_iff_iff]
    simp
  have surplus : (arguments.map (·.name)).filter
      (fun name => (callable.parameter? name).isNone) =
        callable.surplus (arguments.map (·.name)) := by
    apply List.filter_congr
    intro name _
    rw [Bool.eq_iff_iff, Option.isNone_iff_eq_none, ← Option.not_isSome_iff_eq_none,
      Callable.parameter_is_some_iff, decide_eq_true_eq]
    rfl
  rw [check, missing, surplus, Callable.mismatch]
  simp only [Bool.and_eq_true, List.isEmpty_iff]

theorem check_eq_ok_iff : check callable arguments place = .ok () ↔
    callable.missing (arguments.map (·.name)) = [] ∧
      callable.surplus (arguments.map (·.name)) = [] := by
  rw [check_eq]
  split
  · next same => exact ⟨fun _ => same, fun _ => rfl⟩
  · next differs => exact ⟨by rintro ⟨⟩, fun same => absurd same differs⟩

/-- The arguments of a call are found as they are given. -/
theorem of_pieces_of_gives (value : Tree → Evaluation Value) (place : Location)
    {groups : List (Piece Tree)} {arguments : List (String × Tree)}
    (gives : Tree.Gives groups arguments) :
    ofPieces place (groups.map (.map fun tree => ⟨tree, value tree⟩)) =
      .ok (arguments.map (given value)) := by
  have found : ∀ {label expr : Tree} {name : String} {rest : List (Piece Tree)}
      {others : List (String × Tree)}, label.name? = some name → expr.production = .expr →
      ofPieces place (Piece.afterComma (rest.map (.map fun tree => ⟨tree, value tree⟩))) =
        .ok (others.map (given value)) →
      ofPieces place (.tree ⟨label, value label⟩ :: .token "=" :: .tree ⟨expr, value expr⟩ ::
          rest.map (.map fun tree => ⟨tree, value tree⟩)) =
        .ok (((name, expr) :: others).map (given value)) := by
    intro label expr name rest others named isExpr found
    have label_ : name? (.tree ⟨label, value label⟩) = some name := named
    have expr_ : expr? (.tree ⟨expr, value expr⟩) = some ⟨expr, value expr⟩ := by
      rw [expr?, Piece.tree?, Option.filter_some, isExpr]
      rfl
    rw [of_pieces_group, label_, expr_, found]
    rfl
  induction gives with
  | nil => rfl
  | group named isExpr others induction =>
      refine found named isExpr ?_
      -- nothing is skipped: no group starts with a comma
      cases others with
      | nil => rfl
      | group _ _ _ => exact induction
      | listed _ _ _ => exact induction
  | listed named isExpr _ induction => exact found named isExpr induction

end Argument

namespace Evaluation

variable {tree tree' : Tree} {name : String} {arguments others : List (String × Tree)}

/-- A call compares the names, evaluates the arguments in the order they are written in, and then
begins. -/
theorem reduce_call (names : Names)
    (enter : Callable → List (String × Value) → Evaluation Value)
    (value : Tree → Evaluation Value) (called : tree.IsCallOf name arguments) :
    reduce names enter tree (tree.pieces.map (.map fun tree => ⟨tree, value tree⟩))
        ((Tree.argumentPieces tree.pieces).map (.map fun tree => ⟨tree, value tree⟩)) = (do
      let callable ← ofExcept (callee names name tree.location)
      ofExcept (Argument.check callable (arguments.map (Argument.given value)) tree.location)
      let values ← Argument.evaluateAll (arguments.map (Argument.given value))
      during ⟨name, tree.location⟩ (invoke enter callable values)) := by
  cases called with
  | @call callee _ groups _ listPlace place named gives =>
      have parts : callParts place
          (groups.map (.map fun tree => ⟨tree, value tree⟩))
          [.tree ⟨callee, value callee⟩, .token "(",
            .tree ⟨.node .arguments groups listPlace, value (.node .arguments groups listPlace)⟩,
            .token ")"] = .ok (name, arguments.map (Argument.given value)) := by
        have callee_ : Argument.name? (.tree ⟨callee, value callee⟩) = some name := named
        rw [callParts, callee_]
        change (Argument.ofPieces listPlace _).map _ = _
        rw [Argument.of_pieces_of_gives value listPlace gives]
        rfl
      change call names enter place _ _ = _
      rw [call]
      change (ofExcept (callParts place (groups.map (.map fun tree => ⟨tree, value tree⟩))
          [.tree ⟨callee, value callee⟩, .token "(",
            .tree ⟨.node .arguments groups listPlace, value (.node .arguments groups listPlace)⟩,
            .token ")"]) >>= _) = _
      rw [parts]
      rfl

/-- A call that is evaluated begins with what names stand for in the scope. -/
theorem within_call (depth : Nat) (scope : Scope) (called : tree.IsCallOf name arguments) :
    within (depth + 1) scope tree = (do
      let callable ← ofExcept (callee scope.names name tree.location)
      ofExcept (Argument.check callable
        (arguments.map (Argument.given (within (depth + 1) scope))) tree.location)
      let values ← Argument.evaluateAll (arguments.map (Argument.given (within (depth + 1) scope)))
      during ⟨name, tree.location⟩ (invoke
        (fun callable bindings => within depth (scope.bind bindings) callable.body)
        callable values)) := by
  rw [within_succ, of_tree_eq_reduce]
  exact reduce_call scope.names _ _ called

/-- What the arguments are bound to: the value of each, converted to the kind of its parameter. -/
def Binds (callable : Callable) (value : Tree → Evaluation Value) (calls : Calls)
    (argument : String × Tree) (binding : String × Value) : Prop :=
  argument.1 = binding.1 ∧ ∃ parameter computed, callable.parameter? argument.1 = some parameter ∧
    value argument.2 calls = some (.ok computed, calls) ∧
    computed.convert? parameter.kind = some binding.2

theorem convert_eq_ok_iff {value converted : Value} {kind : Kind} :
    value.convert kind = .ok converted ↔ value.convert? kind = some converted := by
  unfold Value.convert
  cases value.convert? kind <;> simp

theorem located_eq_ok_iff {α : Type} {outcome : Except Fault α} {result : α} {place : Location} :
    located place outcome = .ok result ↔ outcome = .ok result := by
  cases outcome with
  | ok value => exact Iff.rfl
  | error fault => exact iff_of_false (by rintro ⟨⟩) (by rintro ⟨⟩)

theorem told_eq_ok_iff {α β : Type} {outcome : Except Fault α} {rest : α → Evaluation β}
    {calls next : Calls} {result : β} :
    (ofExcept outcome >>= rest) calls = some (.ok result, next) ↔
      ∃ first, outcome = .ok first ∧ rest first calls = some (.ok result, next) := by
  cases outcome with
  | ok first => exact ⟨fun ran => ⟨first, rfl, ran⟩, by rintro ⟨_, ⟨⟩, ran⟩; exact ran⟩
  | error fault => exact iff_of_false (by rintro ⟨⟩) (by rintro ⟨_, ⟨⟩, _⟩)

theorem convert_all_cons_eq_ok_iff {callable : Callable} {argument : Argument} {value : Value}
    {rest : List (Argument × Value)} {bindings : List (String × Value)} :
    Argument.convertAll callable ((argument, value) :: rest) = .ok bindings ↔
      ∃ parameter converted more, callable.parameter? argument.name = some parameter ∧
        value.convert? parameter.kind = some converted ∧
        Argument.convertAll callable rest = .ok more ∧
        bindings = (argument.name, converted) :: more := by
  rw [Argument.convertAll]
  cases callable.parameter? argument.name with
  | none => exact iff_of_false (by rintro ⟨⟩) (by rintro ⟨_, _, _, ⟨⟩, _⟩)
  | some parameter =>
      dsimp only
      constructor
      · intro ran
        obtain ⟨converted, more, first, others, rfl⟩ : ∃ converted more,
            located argument.value.tree.location (value.convert parameter.kind) = .ok converted ∧
              Argument.convertAll callable rest = .ok more ∧
              bindings = (argument.name, converted) :: more := by
          cases first : located argument.value.tree.location (value.convert parameter.kind) with
          | error fault =>
              rw [first] at ran
              cases ran
          | ok converted =>
              cases others : Argument.convertAll callable rest with
              | error fault =>
                  rw [first, others] at ran
                  cases ran
              | ok more =>
                  rw [first, others] at ran
                  cases ran
                  exact ⟨converted, more, rfl, rfl, rfl⟩
        exact ⟨parameter, converted, more, rfl,
          convert_eq_ok_iff.mp (located_eq_ok_iff.mp first), others, rfl⟩
      · rintro ⟨_, converted, more, ⟨⟩, first, others, rfl⟩
        rw [located_eq_ok_iff.mpr (convert_eq_ok_iff.mpr first), others]
        rfl

theorem evaluate_all_cons_eq_ok_iff {argument : Argument} {rest : List Argument}
    {calls next : Calls} {values : List (Argument × Value)} :
    Argument.evaluateAll (argument :: rest) calls = some (.ok values, next) ↔
      ∃ value middle more, argument.value.value calls = some (.ok value, middle) ∧
        Argument.evaluateAll rest middle = some (.ok more, next) ∧
        values = (argument, value) :: more := by
  rw [Argument.evaluateAll, bind_eq_ok_iff]
  constructor
  · rintro ⟨value, middle, first, ran⟩
    obtain ⟨more, last, others, ended⟩ := bind_eq_ok_iff.mp ran
    cases ended
    exact ⟨value, middle, more, first, others, rfl⟩
  · rintro ⟨value, middle, more, first, others, rfl⟩
    exact ⟨value, middle, first, bind_eq_ok_iff.mpr ⟨more, next, others, rfl⟩⟩

/-- All arguments have values and all of these are converted if every argument binds something. -/
theorem bound_iff {callable : Callable} {value : Tree → Evaluation Value} {calls next : Calls}
    {bindings : List (String × Value)}
    (restores : ∀ tree outcome next, value tree calls = some (outcome, next) → next = calls) :
    (∃ values, Argument.evaluateAll (arguments.map (Argument.given value)) calls =
        some (.ok values, next) ∧ Argument.convertAll callable values = .ok bindings) ↔
      next = calls ∧ List.Forall₂ (Binds callable value calls) arguments bindings := by
  induction arguments generalizing bindings with
  | nil =>
      rw [List.forall₂_nil_left_iff]
      constructor
      · rintro ⟨values, evaluated, converted⟩
        cases evaluated
        cases converted
        exact ⟨rfl, rfl⟩
      · rintro ⟨rfl, rfl⟩
        exact ⟨[], rfl, rfl⟩
  | cons argument arguments induction =>
      rw [List.map_cons, List.forall₂_cons_left_iff]
      constructor
      · rintro ⟨values, evaluated, converted⟩
        obtain ⟨computed, middle, more, first, others, rfl⟩ :=
          evaluate_all_cons_eq_ok_iff.mp evaluated
        obtain ⟨parameter, result, rest, declared, fits, later, rfl⟩ :=
          convert_all_cons_eq_ok_iff.mp converted
        obtain rfl := restores _ _ _ first
        obtain ⟨kept, bound⟩ := induction.mp ⟨more, others, later⟩
        exact ⟨kept, _, rest, ⟨rfl, parameter, computed, declared, first, fits⟩, bound, rfl⟩
      · rintro ⟨kept, _, rest, ⟨named, parameter, computed, declared, first, fits⟩, bound, rfl⟩
        obtain ⟨more, others, later⟩ := induction.mpr ⟨kept, bound⟩
        refine ⟨_, evaluate_all_cons_eq_ok_iff.mpr ⟨computed, calls, more, first, others, rfl⟩,
          convert_all_cons_eq_ok_iff.mpr ⟨parameter, _, rest, declared, fits, later, ?_⟩⟩
        exact congrArg (fun name => (name, _) :: rest) named.symm

theorem during_eq_ok_iff {call : Call} {body : Evaluation Value} {calls next : Calls}
    {value : Value} :
    during call body calls = some (.ok value, next) ↔
      calls.HasRoom ∧ ∃ left, body (calls.inside call) = some (.ok value, left) ∧
        next = left.pop := by
  rcases calls.push_cases call with room | ⟨limit, limited, reached, full⟩
  · rw [during_of_room room, Option.map_eq_some_iff]
    constructor
    · rintro ⟨⟨outcome, left⟩, ended, same⟩
      cases outcome with
      | error fault => cases same
      | ok inner =>
          cases same
          exact ⟨room, left, ended, rfl⟩
    · rintro ⟨_, left, ended, rfl⟩
      exact ⟨_, ended, rfl⟩
  · rw [during_of_refused full]
    constructor
    · rintro ⟨⟩
    · rintro ⟨room, _⟩
      exact absurd (room limit limited) (Nat.not_lt.mpr reached)

theorem callee_eq_ok_iff {names : Names} {place : Location} {callable : Callable} :
    callee names name place = .ok callable ↔ names.callable? name = some callable := by
  rw [callee]
  cases names.callable? name with
  | none => exact iff_of_false (by rintro ⟨⟩) (by rintro ⟨⟩)
  | some other => exact ⟨fun same => congrArg some (Except.ok.inj same),
      fun same => congrArg Except.ok (Option.some.inj same)⟩

theorem invoke_eq_ok_iff {enter : Callable → List (String × Value) → Evaluation Value}
    {callable : Callable} {values : List (Argument × Value)} {calls next : Calls} {result : Value} :
    invoke enter callable values calls = some (.ok result, next) ↔
      ∃ bindings value, Argument.convertAll callable values = .ok bindings ∧
        enter callable bindings calls = some (.ok value, next) ∧
        value.convert? callable.returns = some result := by
  rw [invoke, told_eq_ok_iff]
  constructor
  · rintro ⟨bindings, converted, entered⟩
    obtain ⟨value, middle, ended, returned⟩ := bind_eq_ok_iff.mp entered
    cases outcome : located callable.body.location (value.convert callable.returns) with
    | error fault =>
        rw [outcome] at returned
        cases returned
    | ok other =>
        rw [outcome] at returned
        cases returned
        exact ⟨bindings, value, converted, ended,
          convert_eq_ok_iff.mp (located_eq_ok_iff.mp outcome)⟩
  · rintro ⟨bindings, value, converted, ended, returned⟩
    refine ⟨bindings, converted, bind_eq_ok_iff.mpr ⟨value, next, ended, ?_⟩⟩
    rw [located_eq_ok_iff.mpr (convert_eq_ok_iff.mpr returned)]
    rfl

/-- A call has a value if its names match, every argument binds something, one more call is
admitted, and the body has a value with these bindings. -/
theorem within_call_eq_ok_iff (depth : Nat) (scope : Scope) {calls : Calls} {result : Value}
    (called : tree.IsCallOf name arguments) :
    within (depth + 1) scope tree calls = some (.ok result, calls) ↔
      ∃ callable bindings value, scope.callable? name = some callable ∧
        (callable.missing (arguments.map Prod.fst) = [] ∧
          callable.surplus (arguments.map Prod.fst) = []) ∧
        List.Forall₂ (Binds callable (within (depth + 1) scope) calls) arguments bindings ∧
        calls.HasRoom ∧
        within depth (scope.bind bindings) callable.body (calls.inside ⟨name, tree.location⟩) =
          some (.ok value, calls.inside ⟨name, tree.location⟩) ∧
        value.convert? callable.returns = some result := by
  have names : (arguments.map (Argument.given (within (depth + 1) scope))).map (·.name) =
      arguments.map Prod.fst := by
    rw [List.map_map]
    rfl
  have restores : ∀ tree outcome next,
      within (depth + 1) scope tree calls = some (outcome, next) → next = calls :=
    fun _ _ _ ran => within_restores ran
  rw [within_call depth scope called, told_eq_ok_iff]
  constructor
  · rintro ⟨callable, found, ran⟩
    obtain ⟨_, passed, checked⟩ := told_eq_ok_iff.mp ran
    obtain ⟨values, middle, evaluated, begun⟩ := bind_eq_ok_iff.mp checked
    obtain ⟨room, left, inside, _⟩ := during_eq_ok_iff.mp begun
    obtain ⟨bindings, value, converted, ended, returned⟩ := invoke_eq_ok_iff.mp inside
    obtain ⟨rfl, bound⟩ := (bound_iff restores).mp ⟨values, evaluated, converted⟩
    obtain rfl := within_restores ended
    rw [Argument.check_eq_ok_iff, names] at passed
    exact ⟨callable, bindings, value, callee_eq_ok_iff.mp found, passed, bound, room, ended,
      returned⟩
  · rintro ⟨callable, bindings, value, found, complete, bound, room, ended, returned⟩
    obtain ⟨values, evaluated, converted⟩ := (bound_iff restores).mpr ⟨rfl, bound⟩
    have inside : invoke (fun callable bindings => within depth (scope.bind bindings) callable.body)
        callable values (calls.inside ⟨name, tree.location⟩) =
          some (.ok result, calls.inside ⟨name, tree.location⟩) :=
      invoke_eq_ok_iff.mpr ⟨bindings, value, converted, ended, returned⟩
    have begun := during_eq_ok_iff.mpr ⟨room, _, inside, rfl⟩
    rw [← names, ← Argument.check_eq_ok_iff] at complete
    exact ⟨callable, callee_eq_ok_iff.mpr found, told_eq_ok_iff.mpr
      ⟨(), complete, bind_eq_ok_iff.mpr ⟨values, calls, evaluated, begun⟩⟩⟩

/-- A call of a callable goes on to its arguments if their names are the parameter names in some
order, and else fails there and then. -/
theorem reduce_call_of_callable {names : Names} {callable : Callable}
    {enter : Callable → List (String × Value) → Evaluation Value}
    {value : Tree → Evaluation Value} (called : tree.IsCallOf name arguments)
    (found : names.callable? name = some callable) (distinct : callable.parameterNames.Nodup)
    (distinctGiven : (arguments.map Prod.fst).Nodup) :
    reduce names enter tree (tree.pieces.map (.map fun tree => ⟨tree, value tree⟩))
        ((Tree.argumentPieces tree.pieces).map (.map fun tree => ⟨tree, value tree⟩)) =
      if (arguments.map Prod.fst).Perm callable.parameterNames then do
        let values ← Argument.evaluateAll (arguments.map (Argument.given value))
        during ⟨name, tree.location⟩ (invoke enter callable values)
      else throw (callable.mismatch (arguments.map Prod.fst) tree.location) := by
  have names_ : (arguments.map (Argument.given value)).map (·.name) = arguments.map Prod.fst := by
    rw [List.map_map]
    rfl
  rw [reduce_call names enter value called, callee_eq_ok_iff.mpr found, ofExcept, pure_bind,
    Argument.check_eq, names_]
  by_cases perm : (arguments.map Prod.fst).Perm callable.parameterNames
  · rw [if_pos perm, if_pos ((Callable.nothing_amiss_iff_perm distinct distinctGiven).mpr perm)]
    rfl
  · rw [if_neg perm, if_neg fun complete =>
      perm ((Callable.nothing_amiss_iff_perm distinct distinctGiven).mp complete)]
    rfl

end Evaluation

end Reckon
