import Reckon.Grammar.Parse
import Reckon.Proofs.Evaluation.Faults
import Reckon.Proofs.Evaluation.Parallel
import Reckon.Proofs.Scope.Bindings

/-!
Static kinds. The kind of an expression is told by its literals and by the kinds of what its names
stand for, before anything is evaluated, and if the expression has a value, the value is of that
kind. What the body of a callable does makes no difference, as its value is converted to the kind
that the callable returns.
-/

namespace Reckon

namespace Kind

/-- What operations make of operands of these kinds, if all of them have one: a number if any
operand is one, and otherwise an integer. -/
def ofOperands (kinds : List (Option Kind)) : Option Kind :=
  if none ∈ kinds then none else if some .num ∈ kinds then some .num else some .int

/-- The kind of the only operand. -/
def ofOnly : List (Option Kind) → Option Kind
  | [kind?] => kind?
  | _ => none

theorem of_operands_single (kind? : Option Kind) : ofOperands [kind?] = kind? := by
  rcases kind? with _ | _ | _ <;> rfl

/-- Two operands count for as much as the result of an operation on them. -/
theorem of_operands_merge {left right result : Kind}
    (same : ofOperands [some left, some right] = some result) (rest : List (Option Kind)) :
    ofOperands (some left :: some right :: rest) = ofOperands (some result :: rest) := by
  cases left <;> cases right <;> cases same <;> simp [ofOperands]

end Kind

namespace Tree

/-- The name that a call calls. -/
def calleeName? (tree : Tree) : Option String := (tree.pieces.head?.bind Piece.tree?).bind name?

/-- The kind of a tree by its production and by the kinds of the trees among its pieces. A literal
tells its own kind, a variable has that of its value, and a call the one its callable returns. -/
def kindFrom? (names : Names) (tree : Tree) (inner : List (Option Kind)) : Option Kind :=
  match tree.production with
  | .intLiteral => some .int
  | .numLiteral => some .num
  | .identifier => (tree.name?.bind names.value?).map Value.kind
  | .call => (tree.calleeName?.bind names.callable?).map Callable.returns
  | .atom => Kind.ofOnly inner
  | .factor | .term | .expr => Kind.ofOperands inner
  | _ => none

mutual

/-- The kind that an expression has by what names stand for, if it has one. -/
def kind? (names : Names) : Tree → Option Kind
  | .node production pieces location =>
      kindFrom? names (.node production pieces location) (innerKinds names pieces)
termination_by structural tree => tree

/-- The kinds of the trees among the pieces. -/
def innerKinds (names : Names) : List (Piece Tree) → List (Option Kind)
  | [] => []
  | .token _ :: rest => innerKinds names rest
  | .tree tree :: rest => kind? names tree :: innerKinds names rest
termination_by structural pieces => pieces

end

theorem inner_kinds_eq_map (names : Names) (pieces : List (Piece Tree)) :
    innerKinds names pieces = (pieces.filterMap Piece.tree?).map (kind? names) := by
  induction pieces with
  | nil => rfl
  | cons piece rest induction =>
      cases piece with
      | token text => exact induction
      | tree tree => exact congrArg (tree.kind? names :: ·) induction

end Tree

/-- Names that stand for values of the same kinds, and for callables of the same signatures. -/
structure Names.SameKinds (names others : Names) : Prop where
  values : ∀ name, (names.value? name).map Value.kind = (others.value? name).map Value.kind
  callables : ∀ name,
    Option.Rel Callable.SameSignature (names.callable? name) (others.callable? name)

namespace Names.SameKinds

variable {names others : Names}

theorem returns (same : names.SameKinds others) (name : String) :
    (names.callable? name).map Callable.returns = (others.callable? name).map Callable.returns := by
  have callables := same.callables name
  generalize names.callable? name = left at callables ⊢
  generalize others.callable? name = right at callables ⊢
  cases callables with
  | none => rfl
  | some signatures => exact congrArg some signatures.returns

/-- The kind of an expression depends on the kinds and signatures only. -/
theorem kind? (same : names.SameKinds others) (tree : Tree) :
    tree.kind? names = tree.kind? others := by
  induction tree with
  | node production pieces location induction =>
      have inner : Tree.innerKinds names pieces = Tree.innerKinds others pieces := by
        rw [Tree.inner_kinds_eq_map, Tree.inner_kinds_eq_map]
        refine List.map_congr_left fun tree member => ?_
        obtain ⟨piece, among, same⟩ := List.mem_filterMap.mp member
        cases piece with
        | token text => cases same
        | tree inside =>
            cases same
            exact induction tree among
      have values (name? : Option String) : (name?.bind names.value?).map Value.kind =
          (name?.bind others.value?).map Value.kind := by
        cases name? with
        | none => rfl
        | some name => exact same.values name
      have callables (name? : Option String) : (name?.bind names.callable?).map Callable.returns =
          (name?.bind others.callable?).map Callable.returns := by
        cases name? with
        | none => rfl
        | some name => exact same.returns name
      simp only [Tree.kind?, Tree.kindFrom?, inner, values, callables]

end Names.SameKinds

namespace Scope

variable {scope other : Scope}

theorem empty_same_kinds : empty.names.SameKinds empty.names where
  values _ := rfl
  callables name := by
    change Option.Rel _ (empty.callable? name) (empty.callable? name)
    rw [empty_callable?]
    exact .none

/-- Variables of one kind may be given different values. -/
theorem define_variable_same_kinds (same : scope.names.SameKinds other.names) (name : String)
    {value value' : Value} (kinds : value.kind = value'.kind) :
    (scope.defineVariable name value).names.SameKinds
      (other.defineVariable name value').names where
  values wanted := by
    simp only [names, define_variable_value?]
    split
    · exact congrArg some kinds
    · exact same.values wanted
  callables wanted := by
    simp only [names, define_variable_callable?]
    split
    · exact .none
    · exact same.callables wanted

/-- Callables of one signature may be given different bodies. -/
theorem define_callable_same_kinds (same : scope.names.SameKinds other.names)
    {callable callable' : Callable} (signatures : callable.SameSignature callable') :
    (scope.defineCallable callable).names.SameKinds (other.defineCallable callable').names where
  values wanted := by
    simp only [names, define_callable_value?, signatures.name]
    split
    · rfl
    · exact same.values wanted
  callables wanted := by
    simp only [names, define_callable_callable?, signatures.name]
    split
    · exact .some signatures
    · exact same.callables wanted

/-- An integer variable, and a callable without parameters that returns an integer. -/
def dividing (number : Int64) (body : Tree) : Scope :=
  (empty.defineVariable "n" (.int number)).defineCallable ⟨"f", .int, [], body, .start⟩

theorem dividing_same_kinds (first second : Int64) (body other : Tree) :
    (dividing first body).names.SameKinds (dividing second other).names := by
  have kinds : (Value.int first).kind = (Value.int second).kind := rfl
  have signatures : Callable.SameSignature ⟨"f", .int, [], body, .start⟩
      ⟨"f", .int, [], other, .start⟩ := ⟨rfl, rfl, rfl⟩
  exact define_callable_same_kinds (define_variable_same_kinds empty_same_kinds "n" kinds)
    signatures

end Scope

namespace Value

variable {left right value converted : Value} {operator : Operator} {kind : Kind} {text : String}

theorem kind_of_exact {result : Int} (same : ofExact operator result = .ok value) :
    value.kind = .int := by
  unfold ofExact at same
  split at same
  · cases same
    rfl
  · cases same

theorem kind_of_int_power {base exponent : Int} (same : intPower base exponent = .ok value) :
    value.kind = .int := by
  cases squared : power? base 32 exponent.toNat with
  | _ =>
      rw [intPower, squared] at same
      split_ifs at same <;> exact kind_of_exact same

theorem kind_of_int_binary {first second : Int}
    (same : intBinary operator first second = .ok value) : value.kind = .int := by
  cases operator with
  | add => exact kind_of_exact same
  | sub => exact kind_of_exact same
  | mul => exact kind_of_exact same
  | div =>
      rw [intBinary] at same
      split_ifs at same
      exact kind_of_exact same
  | pow => exact kind_of_int_power same

theorem kind_of_num_binary {first second : Float}
    (same : numBinary operator first second = .ok value) : value.kind = .num := by
  cases operator with
  | div =>
      rw [numBinary] at same
      split_ifs at same
      cases same
      rfl
  | _ =>
      cases same
      rfl

/-- An operation gives an integer only of two integers. -/
theorem kind_of_binary (same : binary operator left right = .ok value) :
    Kind.ofOperands [some left.kind, some right.kind] = some value.kind := by
  cases left with
  | int first =>
      cases right with
      | int second => rw [kind_of_int_binary same]; rfl
      | num second => rw [kind_of_num_binary same]; rfl
  | num first =>
      have real : value.kind = .num := kind_of_num_binary same
      rw [real]
      cases right <;> rfl

theorem kind_of_convert (same : value.convert kind = .ok converted) : converted.kind = kind := by
  unfold convert at same
  split at same
  · next found =>
      cases same
      cases kind with
      | int =>
          cases value with
          | int number => cases found; rfl
          | num number =>
              obtain ⟨whole, _, rfl⟩ := Option.map_eq_some_iff.mp found
              rfl
      | num => cases found; rfl
  · cases same

theorem kind_of_read (same : read text kind = .ok value) : value.kind = kind := by
  unfold read at same
  split at same
  · next found =>
      cases same
      cases kind with
      | int =>
          obtain ⟨number, _, rfl⟩ := Option.map_eq_some_iff.mp found
          rfl
      | num =>
          obtain ⟨number, _, rfl⟩ := Option.map_eq_some_iff.mp found
          rfl
  · cases same

end Value

namespace Evaluation

/-- The values that the evaluation gives are of the kind. -/
def GivesKind (evaluation : Evaluation Value) (kind? : Option Kind) : Prop :=
  Ends (fun _ => True) evaluation (fun value => kind? = some value.kind) (fun _ => True)

/-- The kinds of the trees among pieces whose evaluations are known. -/
def operandKinds (names : Names) (pieces : List (Piece Operand)) : List (Option Kind) :=
  (pieces.filterMap Piece.tree?).map fun operand => operand.tree.kind? names

/-- Every tree among the pieces gives values of its own kind. -/
def GiveKinds (names : Names) (pieces : List (Piece Operand)) : Prop :=
  ∀ operand, .tree operand ∈ pieces → operand.value.GivesKind (operand.tree.kind? names)

section

variable {names : Names} {pieces given : List (Piece Operand)} {piece : Piece Operand}
  {place : Location} {construct expected : Production} {kind? : Option Kind}

theorem malformed_gives_kind {text : String} :
    (malformed construct text place : Evaluation Value).GivesKind kind? :=
  .throw trivial

theorem GiveKinds.tail (inside : GiveKinds names (piece :: pieces)) : GiveKinds names pieces :=
  fun operand member => inside operand (List.mem_cons_of_mem _ member)

/-- A piece of the kind, read as an operand. -/
theorem operand_kinds_cons {kind : Kind}
    (same : piece.tree?.bind (fun operand => operand.tree.kind? names) = some kind) :
    operandKinds names (piece :: pieces) = some kind :: operandKinds names pieces := by
  cases piece with
  | token text => cases same
  | tree operand => exact congrArg (· :: operandKinds names pieces) same

/-- A piece that has a value is a tree, and gives values of its kind. -/
theorem value_gives_kind (inside : GiveKinds names (piece :: pieces)) :
    (Operand.valueOf construct place expected piece).GivesKind
      (piece.tree?.bind fun operand => operand.tree.kind? names) := by
  cases piece with
  | token text => exact malformed_gives_kind
  | tree operand =>
      rw [Operand.valueOf]
      split
      · exact inside operand (List.mem_cons_self ..)
      · exact malformed_gives_kind

theorem binary_gives_kind {operator : Operator} {left right : Value} :
    (binary operator left right place).GivesKind
      (Kind.ofOperands [some left.kind, some right.kind]) := by
  refine Ends.ofExcept ⟨fun value same => ?_, fun _ _ => trivial⟩
  unfold Value.compute at same
  cases computed : Value.binary operator left right with
  | error error =>
      rw [computed] at same
      cases same
  | ok result =>
      rw [computed] at same
      cases same
      exact Value.kind_of_binary computed

/-- The first value counts as an operand beside those that follow. -/
theorem chain_rest_gives_kind {rule : ChainRule} {left : Value} (inside : GiveKinds names pieces) :
    (chainRest rule place left pieces).GivesKind
      (Kind.ofOperands (some left.kind :: operandKinds names pieces)) := by
  fun_induction chainRest rule place left pieces with
  | case1 left => exact .pure (Kind.of_operands_single _)
  | case2 left sign rest unread => exact malformed_gives_kind
  | case3 left sign operator read => exact malformed_gives_kind
  | case4 left sign operator read right rest induction =>
      cases sign with
      | tree inner => cases read
      | token text =>
          refine (value_gives_kind inside.tail).bind fun operand kind => ?_
          refine binary_gives_kind.bind fun value merged => ?_
          change GivesKind _
            (Kind.ofOperands (some left.kind :: operandKinds names (right :: rest)))
          rw [operand_kinds_cons kind, Kind.of_operands_merge merged]
          exact induction value inside.tail.tail

/-- One piece alone, read as an operand. -/
theorem only_gives_kind (inside : GiveKinds names [piece]) :
    (Operand.valueOf construct place expected piece).GivesKind
      (Kind.ofOperands (operandKinds names [piece])) := by
  cases piece with
  | token text => exact malformed_gives_kind
  | tree operand =>
      have single : operandKinds names [.tree operand] = [operand.tree.kind? names] := rfl
      rw [single, Kind.of_operands_single]
      exact value_gives_kind inside

theorem chain_gives_kind {rule : ChainRule} (inside : GiveKinds names pieces) :
    (chain rule place pieces).GivesKind (Kind.ofOperands (operandKinds names pieces)) := by
  unfold chain
  split
  · exact malformed_gives_kind
  · exact only_gives_kind inside
  · next first rest _ =>
      refine (value_gives_kind inside).bind fun left kind => ?_
      rw [operand_kinds_cons kind]
      exact chain_rest_gives_kind inside.tail

theorem factor_gives_kind (inside : GiveKinds names pieces) :
    (factor place pieces).GivesKind (Kind.ofOperands (operandKinds names pieces)) := by
  unfold factor
  split
  · exact malformed_gives_kind
  · exact only_gives_kind inside
  · next base caret exponent =>
      split
      · next raised =>
          rw [Piece.eq_token_of_is_token raised] at inside ⊢
          refine (value_gives_kind inside).bind fun left based => ?_
          refine (value_gives_kind inside.tail.tail).bind fun right powered => ?_
          have kinds : operandKinds names [base, .token "^", exponent] =
              [some left.kind, some right.kind] := by
            rw [operand_kinds_cons based]
            exact congrArg (some left.kind :: ·) (operand_kinds_cons powered)
          rw [kinds]
          exact binary_gives_kind
      · exact malformed_gives_kind
  · exact malformed_gives_kind

/-- An atom has the kind of the one tree in it, in parentheses or not. -/
theorem atom_gives_kind (inside : GiveKinds names pieces) :
    (atom place pieces).GivesKind (Kind.ofOnly (operandKinds names pieces)) := by
  unfold atom
  split
  · exact malformed_gives_kind
  · next inner =>
      split
      · exact inside inner (List.mem_cons_self ..)
      · exact malformed_gives_kind
  · next first rest _ =>
      split
      · next opened =>
          rw [Piece.eq_token_of_is_token opened] at inside ⊢
          rcases rest with _ | ⟨inner, _ | ⟨closing, _ | ⟨extra, more⟩⟩⟩
          · exact malformed_gives_kind
          · exact malformed_gives_kind
          · dsimp only
            split
            · next closed =>
                rw [Piece.eq_token_of_is_token closed] at inside ⊢
                cases inner with
                | token text => exact malformed_gives_kind
                | tree operand => exact value_gives_kind inside.tail
            · exact malformed_gives_kind
          · exact malformed_gives_kind
      · exact malformed_gives_kind

theorem literal_gives_kind {tree : Tree} {kind : Kind} :
    (ofExcept (literal kind tree)).GivesKind (some kind) := by
  refine Ends.ofExcept ⟨fun value same => ?_, fun _ _ => trivial⟩
  unfold literal at same
  split at same
  · cases same
  · next text _ =>
      cases read : Value.read text kind with
      | error fault =>
          rw [read] at same
          cases same
      | ok result =>
          rw [read] at same
          cases same
          exact congrArg some (Value.kind_of_read read).symm

theorem identifier_gives_kind {tree : Tree} :
    (ofExcept (identifier names tree)).GivesKind
      ((tree.name?.bind names.value?).map Value.kind) := by
  refine Ends.ofExcept ⟨fun value same => ?_, fun _ _ => trivial⟩
  unfold identifier at same
  split at same
  · cases same
  · next name named =>
      split at same
      · next found =>
          cases same
          rw [named, Option.bind_some, found]
          rfl
      · cases same

/-- What a call gives is what its body gives. -/
theorem during_returns {call : Call} {body : Evaluation Value} {returns : Value → Prop}
    (ends : Ends (fun _ => True) body returns (fun _ => True)) :
    Ends (fun _ => True) (during call body) returns (fun _ => True) := by
  intro calls outcome next _ ran
  refine ⟨trivial, ?_, fun _ _ => trivial⟩
  rintro value rfl
  rcases calls.push_cases call with room | ⟨limit, _, _, full⟩
  · rw [during_of_room room] at ran
    obtain ⟨⟨inner, left⟩, ended, same⟩ := Option.map_eq_some_iff.mp ran
    cases inner with
    | ok result =>
        cases same
        exact (ends _ _ _ trivial ended).2.1 value rfl
    | error fault => cases same
  · rw [during_of_refused full] at ran
    cases ran

/-- Whatever the body does, its value is converted to the kind the callable returns. -/
theorem invoke_gives_kind {enter : Callable → List (String × Value) → Evaluation Value}
    {callable : Callable} {values : List (Argument × Value)} :
    (invoke enter callable values).GivesKind (some callable.returns) := by
  refine Ends.of_any.bind fun bindings _ => Ends.of_any.bind fun value _ => ?_
  refine Ends.ofExcept ⟨fun result same => ?_, fun _ _ => trivial⟩
  cases converted : value.convert callable.returns with
  | error fault =>
      rw [converted] at same
      cases same
  | ok inner =>
      rw [converted] at same
      cases same
      exact congrArg some (Value.kind_of_convert converted).symm

theorem call_gives_kind {enter : Callable → List (String × Value) → Evaluation Value} :
    (call names enter place pieces given).GivesKind
      (((pieces.head?.bind Argument.name?).bind names.callable?).map Callable.returns) := by
  unfold call
  cases found : callParts place given pieces with
  | error fault => exact .throw trivial
  | ok parts =>
      obtain ⟨name, arguments⟩ := parts
      obtain ⟨callee, list, rfl, named, _⟩ := of_call_parts found
      have calls : Ends (fun _ => True) (ofExcept (Evaluation.callee names name place))
          (fun callable => names.callable? name = some callable) (fun _ => True) :=
        (Ends.ofExcept (@callee_ends (fun _ _ => True) names name place)).weaken
          fun _ _ => trivial
      refine calls.bind fun callable called => ?_
      refine Ends.of_any.bind fun _ _ => Ends.of_any.bind fun values _ => ?_
      rw [List.head?_cons, Option.bind_some, named, Option.bind_some, called]
      exact during_returns invoke_gives_kind

end

variable {names : Names} {enter : Callable → List (String × Value) → Evaluation Value}

theorem operand_kinds_of_trees (pieces : List (Piece Tree)) :
    operandKinds names (pieces.map (.map (operand names enter))) =
      Tree.innerKinds names pieces := by
  have trees (piece : Piece Tree) : (piece.map (operand names enter)).tree? =
      piece.tree?.map (operand names enter) := by
    cases piece <;> rfl
  rw [operandKinds, Tree.inner_kinds_eq_map, List.filterMap_map, Function.comp_def]
  simp only [trees, ← List.map_filterMap, List.map_map]
  rfl

/-- A tree gives values of its kind only, whatever the bodies it enters do. -/
theorem of_tree_gives_kind (tree : Tree) :
    (ofTree names enter tree).GivesKind (tree.kind? names) := by
  induction tree with
  | node production pieces place induction =>
      have inside : GiveKinds names (pieces.map (.map (operand names enter))) := by
        intro inner member
        obtain ⟨piece, among, same⟩ := List.mem_map.mp member
        cases piece with
        | token text => cases same
        | tree tree =>
            cases same
            exact induction tree among
      rw [of_tree_eq_reduce, Tree.kind?, ← operand_kinds_of_trees, reduce, Tree.kindFrom?]
      cases production with
      | expr => exact chain_gives_kind inside
      | term => exact chain_gives_kind inside
      | factor => exact factor_gives_kind inside
      | atom => exact atom_gives_kind inside
      | call =>
          have callee : (pieces.map (.map (operand names enter))).head?.bind Argument.name? =
              (Tree.node .call pieces place).calleeName? := by
            cases pieces with
            | nil => rfl
            | cons first rest => cases first <;> rfl
          rw [Tree.production, ← callee]
          exact call_gives_kind
      | intLiteral => exact literal_gives_kind
      | numLiteral => exact literal_gives_kind
      | identifier => exact identifier_gives_kind
      | _ => exact malformed_gives_kind

/-- A value is of the kind that its expression has by the names of the scope, whatever calls are
under way, whatever the limit on them and however deep they are followed. So an expression has
values of one kind in all scopes whose variables have the same kinds and whose callables have the
same signatures. -/
theorem value_has_static_kind {depth : Nat} {scope : Scope} {tree : Tree} {calls next : Calls}
    {value : Value} (returned : within depth scope tree calls = some (.ok value, next)) :
    tree.kind? scope.names = some value.kind ∧
      ∀ other : Scope, scope.names.SameKinds other.names → ∀ deeper others value' next',
        within deeper other tree others = some (.ok value', next') → value'.kind = value.kind := by
  have sound {depth : Nat} {scope : Scope} {calls next : Calls} {value : Value}
      (returned : within depth scope tree calls = some (.ok value, next)) :
      tree.kind? scope.names = some value.kind := by
    cases depth with
    | zero => cases returned
    | succ depth => exact (of_tree_gives_kind tree calls _ next trivial returned).2.1 value rfl
  refine ⟨sound returned, fun other same deeper others value' next' ran => ?_⟩
  have kinds : some value'.kind = some value.kind := by
    rw [← sound ran, ← sound returned, same.kind?]
  exact Option.some.inj kinds

/-- The quotient of a call and a variable is an integer whatever the integer and the body are, here
two bodies that are real numbers. -/
theorem quotient_has_static_kind :
    ∃ tree value next value' next', parse "f() / n" = .ok [tree] ∧
      within 2 (.dividing 2 (.leaf .numLiteral "7.5" .unknown)) tree (.start none) =
        some (.ok value, next) ∧
      within 2 (.dividing (-3) (.leaf .numLiteral "0.5" .unknown)) tree (.start (some 1)) =
        some (.ok value', next') ∧
      (Scope.dividing 2 (.leaf .numLiteral "7.5" .unknown)).names.SameKinds
        (Scope.dividing (-3) (.leaf .numLiteral "0.5" .unknown)).names ∧
      tree.kind? (Scope.dividing 2 (.leaf .numLiteral "7.5" .unknown)).names = some .int ∧
      value.kind = .int ∧ value'.kind = .int := by
  have check : ((parse "f() / n").toOption.any fun trees => trees.length = 1 &&
      trees.all fun tree =>
        ((within 2 (.dividing 2 (.leaf .numLiteral "7.5" .unknown)) tree (.start none)).any
          fun ran => ran.1.toBool) &&
        ((within 2 (.dividing (-3) (.leaf .numLiteral "0.5" .unknown)) tree (.start (some 1))).any
          fun ran => ran.1.toBool) &&
        tree.kind? (Scope.dividing 2 (.leaf .numLiteral "7.5" .unknown)).names = some .int) =
      true := by decide +kernel
  cases read : parse "f() / n" with
  | error error =>
      rw [read] at check
      cases check
  | ok trees =>
      rw [read] at check
      obtain ⟨_, ⟨⟩, check⟩ := (Option.any_eq_true _ _).mp check
      rw [Bool.and_eq_true] at check
      obtain ⟨tree, rfl⟩ := List.length_eq_one_iff.mp (of_decide_eq_true check.1)
      have check := List.all_eq_true.mp check.2 tree (List.mem_singleton_self tree)
      simp only [Bool.and_eq_true, decide_eq_true_eq] at check
      obtain ⟨⟨first, second⟩, kind⟩ := check
      obtain ⟨⟨outcome, next⟩, ran, ok⟩ := (Option.any_eq_true _ _).mp first
      obtain ⟨⟨outcome', next'⟩, ran', ok'⟩ := (Option.any_eq_true _ _).mp second
      cases outcome with
      | error fault => cases ok
      | ok value =>
          cases outcome' with
          | error fault => cases ok'
          | ok value' =>
              obtain ⟨same, elsewhere⟩ := value_has_static_kind ran
              have integer : value.kind = .int := Option.some.inj (same.symm.trans kind)
              have kinds := Scope.dividing_same_kinds 2 (-3) (.leaf .numLiteral "7.5" .unknown)
                (.leaf .numLiteral "0.5" .unknown)
              have alike := elsewhere _ kinds _ _ _ _ ran'
              exact ⟨tree, value, next, value', next', rfl, ran, ran', kinds, kind, integer,
                alike.trans integer⟩

end Evaluation

end Reckon
