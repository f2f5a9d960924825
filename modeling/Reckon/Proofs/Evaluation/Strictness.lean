import Reckon.Proofs.Evaluation.Congruence
import Reckon.Proofs.Evaluation.Faults

/-!
Evaluation is strict. A tree has a value only if all trees inside it have one, but for the names of
callables and arguments, which are leaves. So every call in the tree has been made, and the body of
its callable has a value.
-/

namespace Reckon

namespace Evaluation

/-- The evaluation gives a result from some calls under way. -/
def Returns {α : Type} (evaluation : Evaluation α) : Prop :=
  ∃ calls result next, evaluation calls = some (.ok result, next)

/-- All trees among the pieces have values. -/
def AllReturn (pieces : List (Piece Operand)) : Prop :=
  ∀ operand, .tree operand ∈ pieces → operand.value.Returns

section

variable {α β : Type}

theorem returns_of_bind {evaluation : Evaluation α} {rest : α → Evaluation β}
    (returns : Returns (evaluation >>= rest)) :
    evaluation.Returns ∧ ∃ result, (rest result).Returns := by
  obtain ⟨calls, result, next, ran⟩ := returns
  rcases ended_of_bind ran with ⟨fault, _, same⟩ | ⟨inner, middle, ended, continued⟩
  · cases same
  · exact ⟨⟨calls, inner, middle, ended⟩, inner, middle, result, next, continued⟩

theorem not_returns_throw (fault : Fault) : ¬Returns (throw fault : Evaluation α) := by
  rintro ⟨calls, result, next, ran⟩
  cases ran

theorem not_returns_malformed (construct : Production) (expected : String) (place : Location) :
    ¬Returns (malformed construct expected place : Evaluation α) :=
  not_returns_throw _

theorem ok_of_returns {outcome : Except Fault α} (returns : Returns (ofExcept outcome)) :
    ∃ result, outcome = .ok result := by
  cases outcome with
  | ok result => exact ⟨result, rfl⟩
  | error fault => exact absurd returns (not_returns_throw fault)

theorem returns_of_told {outcome : Except Fault α} {rest : α → Evaluation β}
    (returns : Returns (ofExcept outcome >>= rest)) :
    ∃ result, outcome = .ok result ∧ (rest result).Returns := by
  cases outcome with
  | ok result => exact ⟨result, rfl, returns⟩
  | error fault => exact absurd returns (not_returns_throw fault)

end

theorem returns_of_during {call : Call} {body : Evaluation Value}
    (returns : Returns (during call body)) : body.Returns := by
  obtain ⟨calls, result, next, ran⟩ := returns
  rcases calls.push_cases call with room | ⟨limit, _, _, full⟩
  · rw [during_of_room room] at ran
    obtain ⟨⟨outcome, left⟩, ended, same⟩ := Option.map_eq_some_iff.mp ran
    cases outcome with
    | ok value => exact ⟨_, value, left, ended⟩
    | error fault => cases same
  · rw [during_of_refused full] at ran
    cases ran

theorem value_strict {construct expected : Production} {place : Location} {piece : Piece Operand}
    (returns : Returns (Operand.valueOf construct place expected piece)) : AllReturn [piece] := by
  intro operand member
  obtain rfl := List.mem_singleton.mp member
  rw [Operand.valueOf] at returns
  split at returns
  · exact returns
  · exact absurd returns (not_returns_malformed _ _ _)

theorem AllReturn.cons {piece : Piece Operand} {pieces : List (Piece Operand)}
    (first : AllReturn [piece]) (rest : AllReturn pieces) : AllReturn (piece :: pieces) := by
  intro operand member
  rcases List.mem_cons.mp member with here | later
  · exact first operand (List.mem_singleton.mpr here)
  · exact rest operand later

theorem all_return_token (text : String) : AllReturn [.token text] := by
  intro operand member
  cases List.mem_singleton.mp member

theorem all_return_nil : AllReturn [] := by
  intro operand member
  cases member

section

variable {rule : ChainRule} {place : Location} {pieces given : List (Piece Operand)}

theorem chain_rest_strict {left : Value} (returns : Returns (chainRest rule place left pieces)) :
    AllReturn pieces := by
  fun_induction chainRest rule place left pieces with
  | case1 left => exact all_return_nil
  | case2 left sign rest unread => exact absurd returns (not_returns_malformed _ _ _)
  | case3 left sign operator read => exact absurd returns (not_returns_malformed _ _ _)
  | case4 left sign operator read right rest induction =>
      obtain ⟨operand, _, returns⟩ := returns_of_bind returns
      obtain ⟨_, value, returns⟩ := returns_of_bind returns
      cases sign with
      | tree inner => cases read
      | token text =>
          exact (all_return_token text).cons
            ((value_strict operand).cons (induction value returns))

theorem chain_strict (returns : Returns (chain rule place pieces)) : AllReturn pieces := by
  unfold chain at returns
  split at returns
  · exact absurd returns (not_returns_malformed _ _ _)
  · exact value_strict returns
  · obtain ⟨first, left, rest⟩ := returns_of_bind returns
    exact (value_strict first).cons (chain_rest_strict rest)

theorem factor_strict (returns : Returns (factor place pieces)) : AllReturn pieces := by
  unfold factor at returns
  split at returns
  · exact absurd returns (not_returns_malformed _ _ _)
  · exact value_strict returns
  · next base caret exponent =>
      split at returns
      · next raised =>
          rw [Piece.eq_token_of_is_token raised]
          obtain ⟨first, left, returns⟩ := returns_of_bind returns
          obtain ⟨second, _⟩ := returns_of_bind returns
          exact (value_strict first).cons ((all_return_token "^").cons (value_strict second))
      · exact absurd returns (not_returns_malformed _ _ _)
  · exact absurd returns (not_returns_malformed _ _ _)

theorem atom_strict (returns : Returns (atom place pieces)) : AllReturn pieces := by
  unfold atom at returns
  split at returns
  · exact absurd returns (not_returns_malformed _ _ _)
  · next inner =>
      split at returns
      · intro operand member
        cases List.mem_singleton.mp member
        exact returns
      · exact absurd returns (not_returns_malformed _ _ _)
  · next first rest _ =>
      split at returns
      · next opened =>
          rw [Piece.eq_token_of_is_token opened]
          split at returns
          · next inner closing =>
              split at returns
              · next closed =>
                  rw [Piece.eq_token_of_is_token closed]
                  exact (all_return_token "(").cons
                    ((value_strict returns).cons (all_return_token ")"))
              · exact absurd returns (not_returns_malformed _ _ _)
          · exact absurd returns (not_returns_malformed _ _ _)
      · exact absurd returns (not_returns_malformed _ _ _)

theorem evaluate_all_strict {arguments : List Argument}
    (returns : Returns (Argument.evaluateAll arguments)) :
    ∀ argument ∈ arguments, argument.value.value.Returns := by
  induction arguments with
  | nil =>
      intro argument member
      cases member
  | cons first arguments induction =>
      obtain ⟨here, _, returns⟩ := returns_of_bind returns
      obtain ⟨rest, _⟩ := returns_of_bind returns
      intro argument member
      rcases List.mem_cons.mp member with same | later
      · subst same
        exact here
      · exact induction rest argument later

/-- Of the pieces of an argument list all trees are names or have values, if the arguments have. -/
theorem arguments_strict {arguments : List Argument}
    (found : Argument.ofPieces place given = .ok arguments)
    (values : ∀ argument ∈ arguments, argument.value.value.Returns) {operand : Operand}
    (member : .tree operand ∈ given) :
    operand.tree.name?.isSome = true ∨ operand.value.Returns := by
  induction given using Piece.induct_groups generalizing arguments with
  | nil => cases member
  | one name => cases found
  | two name mark => cases found
  | group name mark value rest induction =>
      obtain ⟨text, inner, tail, named, rfl, _, rfl, parsed, rfl⟩ := of_pieces_ok found
      simp only [List.mem_cons, Piece.tree.injEq, reduceCtorEq, false_or] at member
      rcases member with same | same | later
      · subst same
        left
        exact Option.isSome_iff_exists.mpr ⟨text, named⟩
      · subst same
        right
        exact values _ (List.mem_cons_self ..)
      · exact induction parsed (fun argument member => values argument
          (List.mem_cons_of_mem _ member)) (Piece.mem_after_comma later)

/-- A call has a value only if what it calls is a callable whose body has one, and all arguments
have. -/
theorem call_strict {names : Names} {enter : Callable → List (String × Value) → Evaluation Value}
    (returns : Returns (call names enter place pieces given)) :
    ∃ callee list name callable bindings,
      pieces = [callee, .token "(", .tree list, .token ")"] ∧ Argument.name? callee = some name ∧
      list.tree.production = .arguments ∧ names.callable? name = some callable ∧
      (enter callable bindings).Returns ∧
      ∀ operand, .tree operand ∈ given →
        operand.tree.name?.isSome = true ∨ operand.value.Returns := by
  obtain ⟨⟨name, arguments⟩, found, returns⟩ := returns_of_told returns
  obtain ⟨callee, list, split, named, listed, parsed⟩ := of_call_parts found
  obtain ⟨callable, called, returns⟩ := returns_of_told returns
  obtain ⟨_, _, returns⟩ := returns_of_told returns
  obtain ⟨given, _, returns⟩ := returns_of_bind returns
  obtain ⟨bindings, _, returns⟩ := returns_of_told (returns_of_during returns)
  obtain ⟨entered, _⟩ := returns_of_bind returns
  have known := (@callee_ends (fun _ _ => True) names name place).returned callable called
  refine ⟨callee, list, name, callable, bindings, split, named, listed, known, entered, ?_⟩
  intro operand member
  exact arguments_strict parsed (evaluate_all_strict given) member

theorem literal_is_leaf {kind : Kind} {tree : Tree}
    (returns : Returns (ofExcept (literal kind tree))) : tree.leafText?.isSome = true := by
  obtain ⟨value, read⟩ := ok_of_returns returns
  unfold literal at read
  split at read
  · cases read
  · next text found => exact Option.isSome_iff_exists.mpr ⟨text, found⟩

theorem identifier_is_leaf {names : Names} {tree : Tree}
    (returns : Returns (ofExcept (identifier names tree))) : tree.leafText?.isSome = true := by
  obtain ⟨value, read⟩ := ok_of_returns returns
  unfold identifier at read
  split at read
  · cases read
  · next name found => exact Tree.leaf_of_name found

/-- A tree has a value only as a leaf, as a call, or where all trees among its pieces have one. -/
theorem reduce_strict {names : Names} {enter : Callable → List (String × Value) → Evaluation Value}
    {tree : Tree} (returns : Returns (reduce names enter tree pieces given)) :
    tree.leafText?.isSome = true ∨
      (tree.production = .call ∧ Returns (call names enter tree.location pieces given)) ∨
      (tree.production ≠ .call ∧ AllReturn pieces) := by
  unfold reduce at returns
  generalize tree.production = production at returns ⊢
  cases production with
  | call => exact .inr (.inl ⟨rfl, returns⟩)
  | expr => exact .inr (.inr ⟨nofun, chain_strict returns⟩)
  | term => exact .inr (.inr ⟨nofun, chain_strict returns⟩)
  | factor => exact .inr (.inr ⟨nofun, factor_strict returns⟩)
  | atom => exact .inr (.inr ⟨nofun, atom_strict returns⟩)
  | intLiteral => exact .inl (literal_is_leaf returns)
  | numLiteral => exact .inl (literal_is_leaf returns)
  | identifier => exact .inl (identifier_is_leaf returns)
  | _ => exact absurd returns (not_returns_malformed _ _ _)

end

theorem pieces_of_mapped_call {function : Tree → Operand} {pieces : List (Piece Tree)}
    {callee : Piece Operand} {list : Operand}
    (split : pieces.map (.map function) = [callee, .token "(", .tree list, .token ")"]) :
    ∃ first inner, pieces = [first, .token "(", .tree inner, .token ")"] ∧
      first.map function = callee ∧ function inner = list := by
  obtain ⟨first, rest, rfl, calleeSame, split⟩ := List.map_eq_cons_iff.mp split
  obtain ⟨opening, rest, rfl, openingSame, split⟩ := List.map_eq_cons_iff.mp split
  obtain ⟨listed, rest, rfl, listSame, split⟩ := List.map_eq_cons_iff.mp split
  obtain ⟨closing, rest, rfl, closingSame, split⟩ := List.map_eq_cons_iff.mp split
  obtain rfl := List.map_eq_nil_iff.mp split
  cases opening with
  | tree inner => cases openingSame
  | token text =>
      cases closing with
      | tree inner => cases closingSame
      | token other =>
          cases listed with
          | token third => cases listSame
          | tree inner =>
              cases openingSame
              cases closingSame
              cases listSame
              exact ⟨first, inner, rfl, calleeSame, rfl⟩

/-- Every call in the tree is of a callable whose body has a value. -/
def CallsReturn (names : Names) (enter : Callable → List (String × Value) → Evaluation Value)
    (tree : Tree) : Prop :=
  ∀ name place, tree.CallsAt name place →
    ∃ callable bindings, names.callable? name = some callable ∧ (enter callable bindings).Returns

variable {names : Names} {enter : Callable → List (String × Value) → Evaluation Value}

theorem CallsReturn.of_leaf {tree : Tree} (leaf : tree.leafText?.isSome = true) :
    CallsReturn names enter tree :=
  fun _ _ called => absurd called (Tree.no_calls_in_leaf leaf)

theorem CallsReturn.of_named {tree : Tree} (named : tree.name?.isSome = true) :
    CallsReturn names enter tree := by
  obtain ⟨name, same⟩ := Option.isSome_iff_exists.mp named
  exact .of_leaf (Tree.leaf_of_name same)

/-- The calls in a tree that is no call itself are those in the trees among its pieces. -/
theorem CallsReturn.of_pieces {production : Production} {pieces : List (Piece Tree)}
    {place : Location} (other : production ≠ .call)
    (inside : ∀ inner, .tree inner ∈ pieces → CallsReturn names enter inner) :
    CallsReturn names enter (.node production pieces place) := by
  rintro name at_ ⟨callee, rest, part, named⟩
  cases part with
  | whole => exact absurd rfl other
  | inside member part => exact inside _ member name at_ ⟨callee, rest, part, named⟩

/-- The same for a call, whose own callable has to be looked at in addition. -/
theorem CallsReturn.of_call {pieces : List (Piece Tree)} {place : Location}
    (itself : ∀ callee rest name, pieces = .tree callee :: rest → callee.name? = some name →
      ∃ callable bindings, names.callable? name = some callable ∧ (enter callable bindings).Returns)
    (inside : ∀ inner, .tree inner ∈ pieces → CallsReturn names enter inner) :
    CallsReturn names enter (.node .call pieces place) := by
  rintro name at_ ⟨callee, rest, part, named⟩
  cases part with
  | whole => exact itself callee rest name rfl named
  | inside member part => exact inside _ member name at_ ⟨callee, rest, part, named⟩

/-- Behind the callee and the list of a call there are the calls of the arguments only. -/
theorem calls_return_of_call {pieces : List (Piece Tree)} {place : Location}
    (returns : (call names enter place (pieces.map (.map (operand names enter)))
      ((Tree.argumentPieces pieces).map (.map (operand names enter)))).Returns)
    (inside : ∀ list, .tree list ∈ pieces → ∀ value, .tree value ∈ list.pieces →
      (ofTree names enter value).Returns → CallsReturn names enter value) :
    CallsReturn names enter (.node .call pieces place) := by
  obtain ⟨callee, list, name, callable, bindings, split, named, listed, known, entered, given⟩ :=
    call_strict returns
  obtain ⟨first, inner, rfl, rfl, rfl⟩ := pieces_of_mapped_call split
  apply CallsReturn.of_call
  · intro called rest other same calledName
    cases same
    have names : some name = some other := named.symm.trans calledName
    cases names
    exact ⟨callable, bindings, known, entered⟩
  · intro piece member
    simp only [List.mem_cons, List.not_mem_nil, reduceCtorEq, Piece.tree.injEq, false_or,
      or_false] at member
    rcases member with same | same
    · subst same
      exact .of_named (Option.isSome_iff_exists.mpr ⟨name, named⟩)
    · subst same
      obtain ⟨_, groups, listPlace⟩ := piece
      cases listed
      have other : Production.arguments ≠ .call := nofun
      apply CallsReturn.of_pieces other
      intro value among
      have member : Piece.tree (operand names enter value) ∈
          groups.map (Piece.map (operand names enter)) := List.mem_map.mpr ⟨_, among, rfl⟩
      rcases given _ member with leaf | returned
      · exact .of_named leaf
      · exact inside (.node .arguments groups listPlace) (by simp) value among returned

/-- A tree has a value only if all calls in it have been made. -/
theorem of_tree_strict {tree : Tree} (returns : (ofTree names enter tree).Returns) :
    CallsReturn names enter tree := by
  induction tree using Tree.induct_two_levels with
  | node production pieces place inside further =>
      rw [of_tree_eq_reduce] at returns
      rcases reduce_strict returns with leaf | ⟨rfl, returns⟩ | ⟨other, values⟩
      · exact .of_leaf leaf
      · exact calls_return_of_call returns further
      · apply CallsReturn.of_pieces other
        intro inner member
        have value : (operand names enter inner).value.Returns :=
          values _ (List.mem_map.mpr ⟨_, member, rfl⟩)
        exact inside inner member value

end Evaluation

end Reckon
