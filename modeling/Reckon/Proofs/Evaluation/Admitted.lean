import Reckon.Proofs.Evaluation.Recursion
import Reckon.Proofs.Tree.Admitted

/-!
Evaluation accepts admitted trees only. Each rule gives a value only for the pieces of its
production, and it gives one only if all trees among them have values, so that the same is true
further inside. A call has a value only if the body of its callable has one, and so the bodies are
admitted as well when they are entered.
-/

namespace Reckon

/-- The nodes that the evaluation of a tree goes through: those of the tree, and those that the
bodies of the callables called there go through. Parameters can only hide callables, so these are
looked up in the scope of the tree. -/
inductive Scope.GoesThrough (scope : Scope) (node : Tree) : Tree → Prop where
  | own {tree : Tree} (part : node.PartOf tree) : GoesThrough scope node tree
  | body {tree : Tree} {name : String} {place : Location} {callable : Callable}
      (called : tree.CallsAt name place) (found : scope.callable? name = some callable)
      (inside : GoesThrough scope node callable.body) : GoesThrough scope node tree

namespace Evaluation

/-- The production of an operand is that of its tree. -/
def productionOf (operand : Operand) : Production := operand.tree.production

section

variable {rule : ChainRule} {signs : List String} {place : Location}
  {pieces given : List (Piece Operand)}

/-- No sign but these is an operator that the chain allows. -/
def ChainRule.TakesOnly (rule : ChainRule) (signs : List String) : Prop :=
  ∀ sign operator, Operator.ofSymbol? sign = some operator → rule.allows operator = true →
    sign ∈ signs

theorem symbol_of_read {sign : String} {operator : Operator}
    (read : Operator.ofSymbol? sign = some operator) : sign = operator.symbol := by
  unfold Operator.ofSymbol? at read
  split at read <;> cases read <;> rfl

theorem ChainRule.expr_takes_only : expr.TakesOnly ["+", "-"] := by
  intro sign operator read allowed
  rw [symbol_of_read read]
  cases operator with
  | add => exact .head _
  | sub => exact .tail _ (.head _)
  | mul => cases allowed
  | div => cases allowed
  | pow => cases allowed

theorem ChainRule.term_takes_only : term.TakesOnly ["*", "/"] := by
  intro sign operator read allowed
  rw [symbol_of_read read]
  cases operator with
  | add => cases allowed
  | sub => cases allowed
  | mul => exact .head _
  | div => exact .tail _ (.head _)
  | pow => cases allowed

theorem value_fits {construct expected : Production} {piece : Piece Operand}
    (returns : Returns (Operand.valueOf construct place expected piece)) :
    ∃ operand, piece = .tree operand ∧ productionOf operand = expected := by
  cases piece with
  | token text => exact absurd returns (not_returns_malformed _ _ _)
  | tree operand =>
      rw [Operand.valueOf] at returns
      split at returns
      · next fits => exact ⟨operand, rfl, fits⟩
      · exact absurd returns (not_returns_malformed _ _ _)

/-- What follows the first operand of a chain has to be signs and operands by turns. -/
theorem chain_rest_fits (takes : rule.TakesOnly signs) {first : Operand} {left : Value}
    (fits : productionOf first = rule.operand)
    (returns : Returns (chainRest rule place left pieces)) :
    Shape.Chained productionOf rule.operand signs (.tree first :: pieces) := by
  fun_induction chainRest rule place left pieces generalizing first with
  | case1 left => exact .last fits
  | case2 left sign rest unread => exact absurd returns (not_returns_malformed _ _ _)
  | case3 left sign operator read => exact absurd returns (not_returns_malformed _ _ _)
  | case4 left sign operator read right rest induction =>
      obtain ⟨second, _, computed⟩ := returns_of_bind returns
      obtain ⟨_, value, others⟩ := returns_of_bind computed
      obtain ⟨operand, rfl, operandFits⟩ := value_fits second
      obtain ⟨symbol, allowed⟩ := Option.filter_eq_some_iff.mp read
      cases sign with
      | tree inner => cases symbol
      | token text =>
          have member := takes text operator symbol allowed
          exact .next fits member (induction value operandFits others)

theorem chain_fits (takes : rule.TakesOnly signs) (returns : Returns (chain rule place pieces)) :
    Shape.Chained productionOf rule.operand signs pieces := by
  unfold chain at returns
  split at returns
  · exact absurd returns (not_returns_malformed _ _ _)
  · obtain ⟨operand, rfl, fits⟩ := value_fits returns
    exact .last fits
  · obtain ⟨first, left, others⟩ := returns_of_bind returns
    obtain ⟨operand, rfl, fits⟩ := value_fits first
    exact chain_rest_fits takes fits others

theorem factor_fits (returns : Returns (factor place pieces)) :
    Shape.Allows productionOf .factor pieces := by
  unfold factor at returns
  split at returns
  · exact absurd returns (not_returns_malformed _ _ _)
  · obtain ⟨base, rfl, based⟩ := value_fits returns
    exact .factor based
  · next base caret exponent =>
      split at returns
      · next raised =>
          obtain rfl := Piece.eq_token_of_is_token raised
          obtain ⟨first, left, returns⟩ := returns_of_bind returns
          obtain ⟨second, _⟩ := returns_of_bind returns
          obtain ⟨baseOperand, rfl, based⟩ := value_fits first
          obtain ⟨exponentOperand, rfl, raised⟩ := value_fits second
          exact .power based raised
      · exact absurd returns (not_returns_malformed _ _ _)
  · exact absurd returns (not_returns_malformed _ _ _)

theorem simple_of_is_simple {production : Production} (simple : isSimpleAtom production = true) :
    production ∈ [.call, .intLiteral, .numLiteral, .identifier] := by
  cases production <;> first | decide | cases simple

theorem atom_fits (returns : Returns (atom place pieces)) :
    Shape.Allows productionOf .atom pieces := by
  unfold atom at returns
  split at returns
  · exact absurd returns (not_returns_malformed _ _ _)
  · split at returns
    · next simple => exact .simple (simple_of_is_simple simple)
    · exact absurd returns (not_returns_malformed _ _ _)
  · next first rest _ =>
      split at returns
      · next opened =>
          obtain rfl := Piece.eq_token_of_is_token opened
          split at returns
          · split at returns
            · next closed =>
                obtain rfl := Piece.eq_token_of_is_token closed
                obtain ⟨inner, rfl, fits⟩ := value_fits returns
                exact .group fits
            · exact absurd returns (not_returns_malformed _ _ _)
          · exact absurd returns (not_returns_malformed _ _ _)
      · exact absurd returns (not_returns_malformed _ _ _)

/-- Arguments are found among groups only. -/
theorem arguments_fit {arguments : List Argument}
    (found : Argument.ofPieces place given = .ok arguments) :
    Shape.Grouped productionOf "=" .expr given := by
  induction given using Piece.induct_groups generalizing arguments with
  | nil => exact .none
  | one name => cases found
  | two name mark => cases found
  | group name mark value rest induction =>
      obtain ⟨text, inner, tail, named, rfl, fits, rfl, parsed, _⟩ := of_pieces_ok found
      cases name with
      | token other => cases named
      | tree operand => exact .cons (Tree.production_of_name named) fits (induction parsed)

end

section

variable {names : Names} {enter : Callable → List (String × Value) → Evaluation Value}
  {pieces given : List (Piece Operand)}

theorem call_fits {place : Location} (returns : Returns (call names enter place pieces given)) :
    Shape.Allows productionOf .call pieces ∧ Shape.Grouped productionOf "=" .expr given := by
  obtain ⟨⟨name, arguments⟩, found, _⟩ := returns_of_told returns
  obtain ⟨callee, list, rfl, named, listed, parsed⟩ := of_call_parts found
  cases callee with
  | token text => cases named
  | tree operand =>
      exact ⟨.call (Tree.production_of_name named) listed, arguments_fit parsed⟩

/-- A tree that has a value is a leaf, or its pieces are those of the table. -/
theorem reduce_fits {tree : Tree} (returns : Returns (reduce names enter tree pieces given)) :
    (tree.leafText?.isSome = true ∧ tree.production ∈ [.intLiteral, .numLiteral, .identifier]) ∨
      Shape.Allows productionOf tree.production pieces := by
  unfold reduce at returns
  cases produced : tree.production with simp only [produced] at returns
  | expr => exact .inr (.expr (chain_fits ChainRule.expr_takes_only returns))
  | term => exact .inr (.term (chain_fits ChainRule.term_takes_only returns))
  | factor => exact .inr (factor_fits returns)
  | atom => exact .inr (atom_fits returns)
  | call => exact .inr (call_fits returns).1
  | intLiteral => exact .inl ⟨literal_is_leaf returns, by decide⟩
  | numLiteral => exact .inl ⟨literal_is_leaf returns, by decide⟩
  | identifier => exact .inl ⟨identifier_is_leaf returns, by decide⟩
  | _ => exact absurd returns (not_returns_malformed _ _ _)

/-- The trees that the operands were made of. -/
theorem trees_of_operands (pieces : List (Piece Tree)) :
    (pieces.map (Piece.map (operand names enter))).map (Piece.map Operand.tree) = pieces := by
  induction pieces with
  | nil => rfl
  | cons piece pieces induction =>
      rw [List.map_cons, List.map_cons, induction]
      cases piece <;> rfl

theorem allows_of_operands {production : Production} {pieces : List (Piece Tree)}
    (allowed : Shape.Allows productionOf production
      (pieces.map (Piece.map (operand names enter)))) :
    Shape.Allows Tree.production production pieces := by
  have mapped : Shape.Allows Tree.production production
      ((pieces.map (Piece.map (operand names enter))).map (Piece.map Operand.tree)) :=
    allowed.map Tree.production Operand.tree
  rwa [trees_of_operands] at mapped

theorem grouped_of_operands {pieces : List (Piece Tree)}
    (grouped : Shape.Grouped productionOf "=" .expr
      (pieces.map (Piece.map (operand names enter)))) :
    Shape.Grouped Tree.production "=" .expr pieces := by
  have mapped : Shape.Grouped Tree.production "=" .expr
      ((pieces.map (Piece.map (operand names enter))).map (Piece.map Operand.tree)) :=
    grouped.map Tree.production Operand.tree
  rwa [trees_of_operands] at mapped

/-- A call that has a value has admitted trees among its pieces, if the expressions among those of
its arguments are. -/
theorem call_admitted {pieces : List (Piece Tree)} {place : Location}
    (returns : (call names enter place (pieces.map (.map (operand names enter)))
      ((Tree.argumentPieces pieces).map (.map (operand names enter)))).Returns)
    (inside : Piece.Every (fun list => Piece.Every (fun value =>
      (ofTree names enter value).Returns → value.Everywhere Tree.Admitted) list.pieces) pieces) :
    Piece.Every (Tree.Everywhere Tree.Admitted) pieces := by
  obtain ⟨callee, list, name, _, _, split, named, listed, _, _, given⟩ := call_strict returns
  obtain ⟨_, grouped⟩ := call_fits returns
  obtain ⟨first, ⟨production, groups, listPlace⟩, rfl, rfl, rfl⟩ := pieces_of_mapped_call split
  cases listed
  cases first with
  | token text => cases named
  | tree nameTree =>
      simp only [Piece.every_tree, Piece.every_token, Piece.every_nil, and_true] at inside ⊢
      refine ⟨Tree.admitted_of_name named, ?_⟩
      refine Tree.everywhere_node.mpr ⟨.arguments (grouped_of_operands grouped), ?_⟩
      intro value among
      have member : Piece.tree (operand names enter value) ∈
          groups.map (Piece.map (operand names enter)) := List.mem_map.mpr ⟨_, among, rfl⟩
      rcases given _ member with name | returned
      · obtain ⟨text, same⟩ := Option.isSome_iff_exists.mp name
        exact Tree.admitted_of_name same
      · exact inside.2 value among returned

/-- A tree that has a value is admitted, and so is every tree inside. -/
theorem admitted_of_returns {tree : Tree} (returns : (ofTree names enter tree).Returns) :
    tree.Everywhere Tree.Admitted := by
  induction tree using Tree.induct_two_levels with
  | node production pieces place inside further =>
      rw [of_tree_eq_reduce] at returns
      rcases reduce_fits returns with ⟨leaf, atomic⟩ | allowed
      · exact Tree.admitted_of_leaf leaf atomic
      · refine Tree.everywhere_node.mpr ⟨.table (allows_of_operands allowed), ?_⟩
        rcases reduce_strict returns with leaf | ⟨rfl, returned⟩ | ⟨_, values⟩
        · obtain ⟨text, rfl⟩ : ∃ text, pieces = [.token text] := Tree.pieces_of_leaf leaf
          exact Piece.every_token.mpr Piece.every_nil
        · exact call_admitted returned further
        · exact fun inner member =>
            inside inner member (values _ (List.mem_map.mpr ⟨_, member, rfl⟩))

end

section

variable {scope inner : Scope} {tree : Tree}

/-- All nodes that the evaluation of the tree goes through are admitted. -/
def Clean (scope : Scope) (tree : Tree) : Prop :=
  ∀ node, scope.GoesThrough node tree → node.Admitted

theorem clean_of_leaf (leaf : tree.leafText?.isSome = true)
    (admitted : tree.Everywhere Tree.Admitted) : Clean scope tree := by
  intro node through
  cases through with
  | own part => exact admitted node part
  | body called => exact absurd called (Tree.no_calls_in_leaf leaf)

theorem clean_of_name {name : String} (named : tree.name? = some name) : Clean scope tree :=
  clean_of_leaf (Tree.leaf_of_name named) (Tree.admitted_of_name named)

/-- A tree that is no call itself goes through itself and what the trees among its pieces go
through. -/
theorem clean_of_pieces {production : Production} {pieces : List (Piece Tree)} {place : Location}
    (other : production ≠ .call) (here : Tree.Admitted (.node production pieces place))
    (inside : Piece.Every (Clean scope) pieces) :
    Clean scope (.node production pieces place) := by
  intro node through
  cases through with
  | own part =>
      cases part with
      | whole => exact here
      | inside member part => exact inside _ member node (.own part)
  | body called found further =>
      obtain ⟨callee, rest, part, named⟩ := called
      cases part with
      | whole => exact absurd rfl other
      | inside member part =>
          exact inside _ member node (.body ⟨callee, rest, part, named⟩ found further)

/-- Where a tree has a value, nothing that its evaluation goes through is misshapen. -/
theorem clean_of_returns {depth : Nat} (among : inner.CallablesIn scope)
    (returns : (within depth inner tree).Returns) : Clean scope tree := by
  -- on the depth: the body of a callable has its value with one call less to be followed
  induction depth generalizing inner tree with
  | zero =>
      obtain ⟨calls, value, next, ran⟩ := returns
      cases ran
  | succ depth induction =>
      intro node through
      cases through with
      | own part => exact admitted_of_returns returns node part
      | body called found further =>
          obtain ⟨callable, bindings, known, entered⟩ := of_tree_strict returns _ _ called
          cases (among _ callable known).symm.trans found
          exact induction (among.bind bindings) entered node further

theorem clean_of_evaluated {calls next : Calls} {value : Value}
    (evaluated : tree.evaluate scope calls = some (.ok value, next)) : Clean scope tree :=
  clean_of_returns (fun _ _ found => found) ⟨calls, value, next, evaluated⟩

end

end Evaluation

end Reckon
