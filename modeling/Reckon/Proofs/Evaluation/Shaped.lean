import Reckon.Evaluation.Tree
import Reckon.Proofs.Tree.Shape

/-!
What trees that follow the table do. None of the checks on pieces fails there, and what is left is
one equation for every way a tree can be built.
-/

namespace Reckon

namespace Evaluation

variable {names : Names} {enter : Callable → List (String × Value) → Evaluation Value}

/-- A tree is always looked at itself, whatever calls are under way. -/
theorem allowance_positive (scope : Scope) (calls : Calls) :
    ∃ depth, allowance scope calls = depth + 1 := by
  rw [allowance]
  cases calls.limit? with
  | some limit => exact ⟨_, rfl⟩
  | none =>
      have positive : 0 < followedDepth := Nat.two_pow_pos 62
      obtain ⟨depth, same⟩ := Nat.exists_eq_add_of_lt positive
      refine ⟨depth + scope.callables.size, ?_⟩
      change followedDepth + scope.callables.size = _
      omega

/-- A tree as an operand of the tree around it. -/
def operand (names : Names) (enter : Callable → List (String × Value) → Evaluation Value)
    (tree : Tree) : Operand := ⟨tree, ofTree names enter tree⟩

theorem value_of_fitting (names : Names)
    (enter : Callable → List (String × Value) → Evaluation Value) (construct : Production)
    (location : Location) {expected : Production} {tree : Tree}
    (fits : tree.production = expected) :
    Operand.valueOf construct location expected (.tree (operand names enter tree)) =
      ofTree names enter tree := if_pos fits

theorem of_tree_simple {inner : Tree} {location : Location}
    (fits : inner.production ∈ [.call, .intLiteral, .numLiteral, .identifier]) :
    ofTree names enter (.node .atom [.tree inner] location) = ofTree names enter inner := by
  have simple : isSimpleAtom inner.production = true := by
    simp only [List.mem_cons, List.not_mem_nil, or_false] at fits
    rcases fits with same | same | same | same <;> rw [same] <;> rfl
  rw [ofTree, reduce]
  exact if_pos simple

theorem of_tree_group {inner : Tree} {location : Location} (fits : inner.production = .expr) :
    ofTree names enter (.node .atom [.token "(", .tree inner, .token ")"] location) =
      ofTree names enter inner := by
  rw [ofTree, reduce]
  exact value_of_fitting names enter .atom location fits

theorem of_tree_factor {base : Tree} {location : Location} (fits : base.production = .atom) :
    ofTree names enter (.node .factor [.tree base] location) = ofTree names enter base := by
  rw [ofTree, reduce]
  exact value_of_fitting names enter .factor location fits

theorem of_tree_power {base exponent : Tree} {location : Location}
    (based : base.production = .atom) (raised : exponent.production = .factor) :
    ofTree names enter (.node .factor [.tree base, .token "^", .tree exponent] location) = (do
      let left ← ofTree names enter base
      let right ← ofTree names enter exponent
      binary .pow left right location) := by
  have left := value_of_fitting names enter .factor location based
  have right := value_of_fitting names enter .factor location raised
  rw [← left, ← right, ofTree, reduce]
  rfl

/-- An operator that a chain allows takes its two sides in order. -/
theorem chain_rest_next {rule : ChainRule} {location : Location} {left : Value} {tree : Tree}
    {sign : String} {operator : Operator} {rest : List (Piece Tree)}
    (read : Operator.ofSymbol? sign = some operator) (allowed : rule.allows operator = true)
    (fits : tree.production = rule.operand) :
    chainRest rule location left (operands names enter (.token sign :: .tree tree :: rest)) = (do
      let right ← ofTree names enter tree
      let value ← binary operator left right location
      chainRest rule location value (operands names enter rest)) := by
  have right := value_of_fitting names enter rule.construct location fits
  rw [← right, operands, operands, chainRest]
  simp only [Piece.token?, Option.bind_some, read, Option.filter_some, allowed, if_true]
  rfl

theorem chain_last {rule : ChainRule} {location : Location} {tree : Tree}
    (fits : tree.production = rule.operand) :
    chain rule location (operands names enter [.tree tree]) = ofTree names enter tree :=
  value_of_fitting names enter rule.construct location fits

theorem chain_next {rule : ChainRule} {location : Location} {tree : Tree} {sign : String}
    {rest : List (Piece Tree)} (fits : tree.production = rule.operand) :
    chain rule location (operands names enter (.tree tree :: .token sign :: rest)) = (do
      let left ← ofTree names enter tree
      chainRest rule location left (operands names enter (.token sign :: rest))) := by
  have left := value_of_fitting names enter rule.construct location fits
  rw [← left]
  rfl

namespace ChainRule

/-- Every one of the signs is an operator that the chain allows. -/
def Takes (rule : ChainRule) (signs : List String) : Prop :=
  ∀ sign ∈ signs, ∃ operator,
    Operator.ofSymbol? sign = some operator ∧ rule.allows operator = true

theorem expr_takes : expr.Takes ["+", "-"] := by
  intro sign member
  simp only [List.mem_cons, List.not_mem_nil, or_false] at member
  rcases member with rfl | rfl <;> exact ⟨_, rfl, rfl⟩

theorem term_takes : term.Takes ["*", "/"] := by
  intro sign member
  simp only [List.mem_cons, List.not_mem_nil, or_false] at member
  rcases member with rfl | rfl <;> exact ⟨_, rfl, rfl⟩

end ChainRule

section

variable {rule : ChainRule} {signs : List String} {pieces : List (Piece Tree)} {tree : Tree}
  {sign : String} {operator : Operator} {location : Location}

theorem chain_rest_operation (takes : rule.Takes signs)
    (chained : Shape.Chained Tree.production rule.operand signs pieces)
    (read : Operator.ofSymbol? sign = some operator) (allowed : rule.allows operator = true)
    (fits : tree.production = rule.operand) {earlier : String} (member : earlier ∈ signs)
    {left : Value} :
    chainRest rule location left
        (operands names enter (.token earlier :: pieces ++ [.token sign, .tree tree])) = (do
      let left ← chainRest rule location left (operands names enter (.token earlier :: pieces))
      let right ← ofTree names enter tree
      binary operator left right location) := by
  have closing (left : Value) : chainRest rule location left
      (operands names enter [.token sign, .tree tree]) = (do
        let right ← ofTree names enter tree
        binary operator left right location) := by
    rw [chain_rest_next read allowed fits]
    exact congrArg _ (funext fun right => bind_pure _)
  induction chained generalizing earlier left with
  | last earlierFits =>
      obtain ⟨_, earlierRead, earlierAllowed⟩ := takes earlier member
      rw [List.cons_append, List.singleton_append,
        chain_rest_next earlierRead earlierAllowed earlierFits,
        chain_rest_next earlierRead earlierAllowed earlierFits]
      simp only [bind_assoc, closing]
      rfl
  | next earlierFits nextMember _ induction =>
      obtain ⟨_, earlierRead, earlierAllowed⟩ := takes earlier member
      rw [List.cons_append, List.cons_append,
        chain_rest_next earlierRead earlierAllowed earlierFits,
        chain_rest_next earlierRead earlierAllowed earlierFits]
      simp only [bind_assoc, ← induction nextMember, List.cons_append]

/-- A chain that goes on with one more operand is an operation on what it came to before. -/
theorem chain_operation (takes : rule.Takes signs)
    (chained : Shape.Chained Tree.production rule.operand signs pieces)
    (read : Operator.ofSymbol? sign = some operator) (allowed : rule.allows operator = true)
    (fits : tree.production = rule.operand) :
    chain rule location (operands names enter (pieces ++ [.token sign, .tree tree])) = (do
      let left ← chain rule location (operands names enter pieces)
      let right ← ofTree names enter tree
      binary operator left right location) := by
  cases chained with
  | last firstFits =>
      rw [List.singleton_append, chain_next firstFits, chain_last firstFits]
      refine congrArg _ (funext fun left => ?_)
      rw [chain_rest_next read allowed fits]
      exact congrArg _ (funext fun right => bind_pure _)
  | next firstFits member others =>
      rw [List.cons_append, List.cons_append, chain_next firstFits, chain_next firstFits,
        bind_assoc]
      refine congrArg _ (funext fun left => ?_)
      rw [← List.cons_append]
      exact chain_rest_operation takes others read allowed fits member

end

theorem of_tree_leaf {kind : Kind} {production : Production} {text : String} {location : Location}
    (literal : production = .intLiteral ∧ kind = .int ∨ production = .numLiteral ∧ kind = .num) :
    ofTree names enter (.leaf production text location) =
      ofExcept (located location (Value.read text kind)) := by
  rcases literal with ⟨rfl, rfl⟩ | ⟨rfl, rfl⟩ <;> rfl

theorem of_tree_name {name : String} {location : Location} :
    ofTree names enter (.leaf .identifier name location) =
      match names.value? name with
      | some value => pure value
      | none => throw (
          let fault := (Fault.of (.undefinedVariable name)).locate location
          if (names.callable? name).isSome then fault.withNote (.callIt name) else fault) := by
  change ofExcept (identifier names (.leaf .identifier name location)) = _
  simp only [identifier, Tree.name?, Tree.leaf, Tree.production, Tree.leafText?,
    Production.isLeaf, if_true, Tree.location]
  cases names.value? name <;> rfl

theorem expr_of_fitting {tree : Tree} (fits : tree.production = .expr) :
    Argument.expr? (.tree (operand names enter tree)) = some (operand names enter tree) := by
  rw [Argument.expr?, Piece.tree?, Option.filter_some, if_pos]
  exact beq_iff_eq.mpr fits

/-- The first group of a list is an argument. -/
theorem arguments_of_group {text : String} {tree : Tree} {nameLocation location : Location}
    {rest : List (Piece Tree)} (fits : tree.production = .expr) :
    Argument.ofPieces location (operands names enter
      (.tree (.leaf .identifier text nameLocation) :: .token "=" :: .tree tree :: rest)) =
      (match operands names enter rest with
        | comma :: more =>
            if comma.isToken "," then Argument.ofPieces location more
            else Argument.ofPieces location (comma :: more)
        | [] => .ok []).map (⟨text, operand names enter tree⟩ :: ·) := by
  have read : Argument.expr? (.tree (operand names enter tree)) = some (operand names enter tree) :=
    expr_of_fitting fits
  have name : Argument.name? (.tree (operand names enter (.leaf .identifier text nameLocation))) =
      some text := rfl
  simp only [operand] at read name
  cases rest with
  | nil => simp [operands, Argument.ofPieces, read, name, Piece.isToken, Piece.token?, operand]
  | cons piece rest =>
      cases piece <;>
        simp [operands, Argument.ofPieces, read, name, Piece.isToken, Piece.token?, operand]

/-- The arguments of a list that follows the table are the operands in it, by their names. -/
theorem arguments_of_listed (names : Names)
    (enter : Callable → List (String × Value) → Evaluation Value) {pieces : List (Piece Tree)}
    (listed : Shape.Listed Tree.production "=" .expr pieces)
    (shaped : ∀ tree, .tree tree ∈ pieces → tree.FollowsTable) (location : Location) :
    ∃ arguments, Argument.ofPieces location (operands names enter pieces) = .ok arguments ∧
      arguments.map (·.name) = Tree.namesAmong pieces ∧
      ∀ argument ∈ arguments, ∃ tree, .tree tree ∈ pieces ∧ tree.production = .expr ∧
        argument.value = operand names enter tree := by
  induction listed with
  | none => exact ⟨[], rfl, rfl, by simp⟩
  | @last name value named fits =>
      obtain ⟨text, nameLocation, rfl, _⟩ := Tree.text_of_name (shaped name (by simp)) named
      refine ⟨[⟨text, operand names enter value⟩], ?_, ?_, ?_⟩
      · rw [arguments_of_group fits]
        rfl
      · rw [Tree.names_among_group fits]
        rfl
      · rintro argument member
        rw [List.mem_singleton.mp member]
        exact ⟨value, by simp, fits, rfl⟩
  | @next name value rest named fits others induction =>
      obtain ⟨text, nameLocation, rfl, _⟩ := Tree.text_of_name (shaped name (by simp)) named
      obtain ⟨arguments, found, names_, inside⟩ :=
        induction fun tree member => shaped tree (by simp [member])
      refine ⟨⟨text, operand names enter value⟩ :: arguments, ?_, ?_, ?_⟩
      · rw [arguments_of_group fits]
        change (Argument.ofPieces location (operands names enter rest)).map _ = _
        rw [found]
        rfl
      · rw [Tree.names_among_group fits, List.map_cons, names_, Tree.names_among_token]
      · intro argument member
        rcases List.mem_cons.mp member with rfl | member
        · exact ⟨value, by simp, fits, rfl⟩
        · obtain ⟨tree, treeMember, rest⟩ := inside argument member
          exact ⟨tree, by simp [treeMember], rest⟩

/-- A call whose arguments have been found looks up the callable, compares the names, and evaluates
the arguments before the body. -/
theorem of_tree_call {name : String} {pieces : List (Piece Tree)} {arguments : List Argument}
    {nameLocation listLocation location : Location}
    (found : Argument.ofPieces listLocation (operands names enter pieces) = .ok arguments) :
    ofTree names enter (.node .call [.tree (.leaf .identifier name nameLocation), .token "(",
      .tree (.node .arguments pieces listLocation), .token ")"] location) = (do
        let callable ← ofExcept (callee names name location)
        ofExcept (Argument.check callable arguments location)
        let values ← Argument.evaluateAll arguments
        during ⟨name, location⟩ (invoke enter callable values)) := by
  have parts : callParts location (operands names enter pieces)
      (operands names enter [.tree (.leaf .identifier name nameLocation), .token "(",
        .tree (.node .arguments pieces listLocation), .token ")"]) = .ok (name, arguments) := by
    simp only [operands]
    change (Argument.ofPieces listLocation (operands names enter pieces)).map _ = _
    rw [found]
    rfl
  change call names enter location _ (operands names enter pieces) = _
  rw [call, parts]
  rfl

end Evaluation

end Reckon
