import Reckon.Proofs.Evaluation.Arguments
import Reckon.Proofs.Evaluation.Locations

/-!
Arguments go with parameters by name, and their order is of no account. A call is refused for its
argument names before any argument is looked at further, unless they are the parameter names in some
order. Two calls that give the same expressions to the same names both have the same value or both
have none: each expression leaves the calls under way as they were, and what is bound to different
names can be bound in any order.
-/

namespace Reckon

namespace Tree

/-- The same names with expressions of the same structure, in any order. -/
def SameArguments (given others : List (String × Tree)) : Prop :=
  ∃ reordered, given.Perm reordered ∧
    List.Forall₂ (fun argument other => argument.1 = other.1 ∧
      argument.2.sameStructure other.2 = true) reordered others

theorem SameArguments.symm {given others : List (String × Tree)}
    (same : SameArguments given others) : SameArguments others given := by
  obtain ⟨reordered, perm, alike⟩ := same
  have back : List.Forall₂ (fun argument other : String × Tree => argument.1 = other.1 ∧
      argument.2.sameStructure other.2 = true) others reordered :=
    alike.flip.imp fun argument other same => ⟨same.1.symm,
      (same_structure_iff ..).mpr ((same_structure_iff ..).mp same.2).symm⟩
  have together : Relation.Comp (List.Forall₂ _) List.Perm others given :=
    ⟨reordered, back, perm.symm⟩
  rwa [List.forall₂_comp_perm_eq_perm_comp_forall₂] at together

theorem SameArguments.names {given others : List (String × Tree)}
    (same : SameArguments given others) : (given.map Prod.fst).Perm (others.map Prod.fst) := by
  obtain ⟨reordered, perm, alike⟩ := same
  have names : reordered.map Prod.fst = others.map Prod.fst := by
    rw [← List.forall₂_eq_eq_eq, List.forall₂_map_left_iff, List.forall₂_map_right_iff]
    exact alike.imp fun _ _ same => same.1
  rw [← names]
  exact perm.map Prod.fst

/-- A call of the name with two arguments. -/
def pairCall (name : String) (first second : String × Tree) : Tree :=
  .node .call [.tree (.leaf .identifier name .unknown), .token "(",
    .tree (.node .arguments [.tree (.leaf .identifier first.1 .unknown), .token "=",
      .tree first.2, .token ",", .tree (.leaf .identifier second.1 .unknown), .token "=",
      .tree second.2] .unknown), .token ")"] .unknown

theorem pair_call_is_call (name : String) (first second : String × Tree)
    (isExpr : first.2.production = .expr) (isExpr' : second.2.production = .expr) :
    (pairCall name first second).IsCallOf name [first, second] :=
  .call rfl (.listed rfl isExpr (.group rfl isExpr' .nil))

end Tree

namespace Scope

variable {scope other : Scope}

theorem alike_of_same_names (same : scope.names = other.names) : scope.Alike other where
  values name := congrFun (congrArg Names.value? same) name
  callables name := by
    have callables : scope.callable? name = other.callable? name :=
      congrFun (congrArg Names.callable? same) name
    rw [callables]
    cases other.callable? name with
    | none => exact .none
    | some callable => exact .some ⟨rfl, rfl, rfl, rfl⟩

/-- A scope with a callable of two parameters. -/
def ofTwo (body : Tree) : Scope :=
  .defineCallable .empty ⟨"f", .num, [⟨"a", .int⟩, ⟨"b", .num⟩], body, .start⟩

end Scope

namespace Evaluation

variable {tree tree' : Tree} {name : String} {arguments others : List (String × Tree)}

/-- A tree of the same structure has the same value, where names stand for the same and as many
calls are under way. -/
theorem within_ok_of_alike {depth : Nat} {scope other : Scope} {calls others next : Calls}
    {value : Value} (scopes : scope.Alike other) (trees : tree.Alike tree')
    (alike : calls.Alike others)
    (ran : within depth scope tree calls = some (.ok value, next)) :
    within depth other tree' others = some (.ok value, others) := by
  have ended := within_alike depth scopes trees calls others alike
  rw [ran] at ended
  generalize right : within depth other tree' others = end_ at ended ⊢
  cases ended with
  | some same =>
      cases same with
      | ok same _ =>
          rw [same, within_restores right]

theorem names_bound {callable : Callable} {value : Tree → Evaluation Value} {calls : Calls}
    {bindings : List (String × Value)}
    (bound : List.Forall₂ (Binds callable value calls) arguments bindings) :
    arguments.map Prod.fst = bindings.map Prod.fst := by
  rw [← List.forall₂_eq_eq_eq, List.forall₂_map_left_iff, List.forall₂_map_right_iff]
  exact bound.imp fun _ _ binds => binds.1

/-- The same arguments bind the same, in the order they are written in. -/
theorem bound_of_same_arguments {depth : Nat} {scope : Scope} {callable : Callable} {calls : Calls}
    {bindings : List (String × Value)} (same : Tree.SameArguments arguments others)
    (bound : List.Forall₂ (Binds callable (within depth scope) calls) arguments bindings) :
    ∃ reordered, bindings.Perm reordered ∧
      List.Forall₂ (Binds callable (within depth scope) calls) others reordered := by
  obtain ⟨written, perm, alike⟩ := same
  obtain ⟨reordered, bound, back⟩ := List.perm_comp_forall₂ perm.symm bound
  refine ⟨reordered, back.symm, ?_⟩
  clear perm back
  induction alike generalizing reordered with
  | nil =>
      cases bound
      exact .nil
  | cons same _ induction =>
      cases bound with
      | cons binds bound =>
          obtain ⟨named, parameter, computed, declared, ended, fits⟩ := binds
          have again := within_ok_of_alike (Scope.alike_of_same_names rfl)
            ((Tree.same_structure_iff ..).mp same.2) ⟨rfl, rfl⟩ ended
          rw [same.1] at named declared
          exact .cons ⟨named, parameter, computed, declared, again, fits⟩ (induction _ bound)

/-- What a call comes to that has a value, another call with the same arguments comes to. -/
theorem within_ok_of_same_arguments {depth : Nat} {scope : Scope} {calls : Calls} {value : Value}
    (called : tree.IsCallOf name arguments) (called' : tree'.IsCallOf name others)
    (same : Tree.SameArguments arguments others) (distinct : (arguments.map Prod.fst).Nodup)
    (ran : within (depth + 1) scope tree calls = some (.ok value, calls)) :
    within (depth + 1) scope tree' calls = some (.ok value, calls) := by
  obtain ⟨callable, bindings, computed, found, complete, bound, room, ended, returned⟩ :=
    (within_call_eq_ok_iff depth scope called).mp ran
  obtain ⟨reordered, perm, bound'⟩ := bound_of_same_arguments same bound
  have complete' : callable.missing (others.map Prod.fst) = [] ∧
      callable.surplus (others.map Prod.fst) = [] := by
    rw [Callable.nothing_amiss_iff] at complete ⊢
    intro name
    rw [← same.names.mem_iff, complete name]
  have distinctBound : (bindings.map Prod.fst).Nodup := by rwa [← names_bound bound]
  have scopes : (scope.bind bindings).Alike (scope.bind reordered) :=
    Scope.alike_of_same_names (Scope.bind_perm perm distinctBound)
  have inside : (calls.inside ⟨name, tree.location⟩).Alike (calls.inside ⟨name, tree'.location⟩) :=
    ⟨rfl, rfl⟩
  have ended' := within_ok_of_alike scopes rfl inside ended
  exact (within_call_eq_ok_iff depth scope called').mpr
    ⟨callable, reordered, computed, found, complete', bound', room, ended', returned⟩

theorem evaluate_ok_of_same_arguments {scope : Scope} {calls : Calls} {value : Value}
    (called : tree.IsCallOf name arguments) (called' : tree'.IsCallOf name others)
    (same : Tree.SameArguments arguments others) (distinct : (arguments.map Prod.fst).Nodup)
    (ran : tree.evaluate scope calls = some (.ok value, calls)) :
    tree'.evaluate scope calls = some (.ok value, calls) := by
  obtain ⟨depth, allowed⟩ := allowance_positive scope calls
  rw [Tree.evaluate, allowed] at ran ⊢
  exact within_ok_of_same_arguments called called' same distinct ran

/-- A call passes the check of its argument names if they are the parameter names in some order. If
not, its fault tells the parameters that are not given, in the order of their declaration, and the
names that are no parameters, in the order in which they are written; whatever the expressions of
the arguments would do makes no difference. Two calls that give the same expressions to the same
names, in whatever order, come to the same value if one of them has a value, and under a limit both
fail if neither has one. -/
theorem argument_order_is_irrelevant {scope : Scope} (called : tree.IsCallOf name arguments)
    (distinctGiven : (arguments.map Prod.fst).Nodup) :
    (∀ callable, scope.callable? name = some callable → callable.parameterNames.Nodup →
      (∀ (given : List Argument) place, given.map (·.name) = arguments.map Prod.fst →
        (Argument.check callable given place = .ok () ↔
          (arguments.map Prod.fst).Perm callable.parameterNames)) ∧
      (∀ evaluate : Scope → Tree → Evaluation Value, step evaluate scope tree =
        if (arguments.map Prod.fst).Perm callable.parameterNames then do
          let values ← Argument.evaluateAll (arguments.map (Argument.given (evaluate scope)))
          during ⟨name, tree.location⟩ (invoke
            (fun callable bindings => evaluate (scope.bind bindings) callable.body)
            callable values)
        else throw (callable.mismatch (arguments.map Prod.fst) tree.location)) ∧
      (¬(arguments.map Prod.fst).Perm callable.parameterNames → ∀ calls,
        tree.evaluate scope calls =
          some (.error (callable.mismatch (arguments.map Prod.fst) tree.location), calls))) ∧
    ∀ (tree' : Tree) others, tree'.IsCallOf name others → Tree.SameArguments arguments others →
      ∀ calls : Calls,
        (∀ value, tree.evaluate scope calls = some (.ok value, calls) ↔
          tree'.evaluate scope calls = some (.ok value, calls)) ∧
        (calls.limit?.isSome = true →
          (∃ value, tree.evaluate scope calls = some (.ok value, calls) ∧
            tree'.evaluate scope calls = some (.ok value, calls)) ∨
          ∃ fault fault', tree.evaluate scope calls = some (.error fault, calls) ∧
            tree'.evaluate scope calls = some (.error fault', calls)) := by
  constructor
  · intro callable found distinct
    refine ⟨?_, ?_, ?_⟩
    · intro given place names
      rw [Argument.check_eq_ok_iff, names,
        Callable.nothing_amiss_iff_perm distinct distinctGiven]
    · intro evaluate
      exact reduce_call_of_callable called found distinct distinctGiven
    · intro differ calls
      obtain ⟨depth, allowed⟩ := allowance_positive scope calls
      have reduced : within (depth + 1) scope tree = _ := of_tree_eq_reduce tree
      rw [Tree.evaluate, allowed, reduced]
      exact congrFun ((reduce_call_of_callable called found distinct distinctGiven).trans
        (if_neg differ)) calls
  · intro tree' others called' same calls
    have distinctOthers : (others.map Prod.fst).Nodup := same.names.nodup distinctGiven
    have both : ∀ value, tree.evaluate scope calls = some (.ok value, calls) ↔
        tree'.evaluate scope calls = some (.ok value, calls) := fun value =>
      ⟨evaluate_ok_of_same_arguments called called' same distinctGiven,
        evaluate_ok_of_same_arguments called' called same.symm distinctOthers⟩
    refine ⟨both, ?_⟩
    intro limited
    obtain ⟨limit, limited⟩ := Option.isSome_iff_exists.mp limited
    obtain ⟨outcome, ended⟩ : ∃ outcome, tree.evaluate scope calls = some (outcome, calls) :=
      evaluate_ends limited
    obtain ⟨outcome', ended'⟩ : ∃ outcome, tree'.evaluate scope calls = some (outcome, calls) :=
      evaluate_ends limited
    cases outcome with
    | ok value => exact .inl ⟨value, ended, (both value).mp ended⟩
    | error fault =>
        right
        cases outcome' with
        | ok value =>
            rw [(both value).mpr ended'] at ended
            cases ended
        | error fault' => exact ⟨fault, fault', ended, ended'⟩

/-- A difference is the same whichever of its parts is given first. If a name is wrong, it makes no
difference that its expression divides by zero. -/
theorem difference_takes_parts_by_name :
    ∃ body seven half quotient, parse "a - b" = .ok [body] ∧ parse "7" = .ok [seven] ∧
      parse "2.5" = .ok [half] ∧ parse "1 / 0" = .ok [quotient] ∧
      (∃ value, value.text = "4.5" ∧
        (Tree.pairCall "f" ("a", seven) ("b", half)).evaluate (.ofTwo body) (.start (some 4)) =
          some (.ok value, .start (some 4)) ∧
        (Tree.pairCall "f" ("b", half) ("a", seven)).evaluate (.ofTwo body) (.start (some 4)) =
          some (.ok value, .start (some 4))) ∧
      (Tree.pairCall "f" ("c", quotient) ("a", seven)).evaluate (.ofTwo body) (.start (some 4)) =
        some (.error ((Fault.of (.argumentMismatch "f" ["b"] ["c"])).locate .unknown),
          .start (some 4)) := by
  obtain ⟨body, readBody⟩ : ∃ body, parse "a - b" = .ok [body] := ⟨_, rfl⟩
  obtain ⟨seven, readSeven⟩ : ∃ seven, parse "7" = .ok [seven] := ⟨_, rfl⟩
  obtain ⟨half, readHalf⟩ : ∃ half, parse "2.5" = .ok [half] := ⟨_, rfl⟩
  obtain ⟨quotient, readQuotient⟩ : ∃ quotient, parse "1 / 0" = .ok [quotient] := ⟨_, rfl⟩
  have sevenIs : seven.production = .expr := by
    cases readSeven
    rfl
  have halfIs : half.production = .expr := by
    cases readHalf
    rfl
  have quotientIs : quotient.production = .expr := by
    cases readQuotient
    rfl
  have callable : (Scope.ofTwo body).callable? "f" =
      some ⟨"f", .num, [⟨"a", .int⟩, ⟨"b", .num⟩], body, .start⟩ := by
    rw [Scope.ofTwo, Scope.define_callable_callable?, if_pos rfl]
  have reordered : Tree.SameArguments [("a", seven), ("b", half)] [("b", half), ("a", seven)] := by
    refine ⟨_, .swap .., List.forall₂_same.mpr fun argument _ => ⟨rfl, ?_⟩⟩
    exact (Tree.same_structure_iff ..).mpr rfl
  have ended : (value? ((Tree.pairCall "f" ("a", seven) ("b", half)).evaluate (.ofTwo body)
      (.start (some 4)))).map Value.text = some "4.5" := by
    cases readBody
    cases readSeven
    cases readHalf
    decide +kernel
  have sevenFirst := Tree.pair_call_is_call "f" ("a", seven) ("b", half) sevenIs halfIs
  have halfFirst := Tree.pair_call_is_call "f" ("b", half) ("a", seven) halfIs sevenIs
  have wrong := Tree.pair_call_is_call "f" ("c", quotient) ("a", seven) quotientIs sevenIs
  have distinct : ["a", "b"].Nodup := by decide
  have distinctWrong : ["c", "a"].Nodup := by decide
  have differ : ¬["c", "a"].Perm ["a", "b"] := by decide
  obtain ⟨_, alike⟩ := argument_order_is_irrelevant sevenFirst distinct
  obtain ⟨checked, _⟩ := argument_order_is_irrelevant wrong distinctWrong
  obtain ⟨_, _, mismatch⟩ := checked _ callable distinct
  refine ⟨body, seven, half, quotient, readBody, readSeven, readHalf, readQuotient, ?_,
    mismatch differ _⟩
  obtain ⟨_, both⟩ := alike _ _ halfFirst reordered (.start (some 4))
  rcases both rfl with ⟨value, first, second⟩ | ⟨fault, _, first, _⟩
  · rw [first] at ended
    exact ⟨value, Option.some.inj ended, first, second⟩
  · rw [first] at ended
    cases ended

end Evaluation

end Reckon
