import Reckon.Proofs.Evaluation.Arguments
import Reckon.Proofs.Evaluation.Shaped

/-!
Where declared kinds meet values. An argument meets the kind of its parameter, and the value of a
body the kind that its callable returns; wherever in an evaluation that happens, a value that the
kind does not take ends the whole evaluation there.
-/

namespace Reckon

section

variable {σ α β : Type} {first : ExceptT Fault (StateT σ Option) α}
  {rest : α → ExceptT Fault (StateT σ Option) β} {state middle next : σ} {fault : Fault}

theorem fails_of_first (failed : first state = some (.error fault, next)) :
    (first >>= rest) state = some (.error fault, next) := by
  rw [bind_apply, failed]

theorem fails_of_second {result : α} (came : first state = some (.ok result, middle))
    (failed : rest result middle = some (.error fault, next)) :
    (first >>= rest) state = some (.error fault, next) := by
  rw [bind_apply, came]
  exact failed

end

/-- The names given in a call are those of the parameters. -/
def Callable.TakesNames (callable : Callable) (given : List String) : Prop :=
  ∀ name, name ∈ given ↔ name ∈ callable.parameterNames

namespace Evaluation

variable {names : Names} {enter : Callable → List (String × Value) → Evaluation Value}
  {calls : Calls}

/-- Evaluating the first tree comes to evaluating the second, which is one of its operands: all that
is evaluated before it has a value. -/
inductive Needs (names : Names) (value : Tree → Evaluation Value) (calls : Calls) :
    Tree → Tree → Prop where
  | first {rule : ChainRule} {operand : Tree} {rest : List (Piece Tree)} {place : Location}
      (known : rule = .expr ∨ rule = .term) (fits : operand.production = rule.operand) :
      Needs names value calls (.node rule.construct (.tree operand :: rest) place) operand
  | next {rule : ChainRule} {before rest : List (Piece Tree)} {sign : String}
      {operator : Operator} {operand : Tree} {place : Location} {left : Value}
      (known : rule = .expr ∨ rule = .term)
      (came : value (.node rule.construct before place) calls = some (.ok left, calls))
      (read : Operator.ofSymbol? sign = some operator) (allowed : rule.allows operator = true)
      (fits : operand.production = rule.operand) :
      Needs names value calls
        (.node rule.construct (before ++ .token sign :: .tree operand :: rest) place) operand
  | base {atom : Tree} {rest : List (Piece Tree)} {place : Location}
      (fits : atom.production = .atom)
      (raised : rest = [] ∨ ∃ exponent, rest = [.token "^", .tree exponent]) :
      Needs names value calls (.node .factor (.tree atom :: rest) place) atom
  | exponent {atom exponent : Tree} {place : Location} {left : Value}
      (fits : atom.production = .atom) (raised : exponent.production = .factor)
      (came : value atom calls = some (.ok left, calls)) :
      Needs names value calls (.node .factor [.tree atom, .token "^", .tree exponent] place)
        exponent
  | simple {inner : Tree} {place : Location} (fits : isSimpleAtom inner.production = true) :
      Needs names value calls (.node .atom [.tree inner] place) inner
  | group {inner : Tree} {place : Location} (fits : inner.production = .expr) :
      Needs names value calls (.node .atom [.token "(", .tree inner, .token ")"] place) inner
  | argument {call expression : Tree} {name label : String} {callable : Callable}
      {before after : List (String × Tree)}
      (called : call.IsCallOf name (before ++ (label, expression) :: after))
      (found : names.callable? name = some callable)
      (complete : callable.TakesNames ((before ++ (label, expression) :: after).map Prod.fst))
      (came : ∀ argument ∈ before, ∃ left, value argument.2 calls = some (.ok left, calls)) :
      Needs names value calls call expression

section

variable {rule : ChainRule} {place : Location} {pieces others : List (Piece Operand)}
  {left : Value} {middle : Calls}

/-- A chain that goes on behind operands with a value goes on from that value. -/
theorem chain_rest_append {start : Value}
    (came : chainRest rule place start pieces calls = some (.ok left, middle)) :
    chainRest rule place start (pieces ++ others) calls =
      chainRest rule place left others middle := by
  fun_induction chainRest rule place start pieces generalizing calls with
  | case1 start =>
      cases came
      rfl
  | case2 start sign rest unread => cases came
  | case3 start sign operator read => cases came
  | case4 start sign operator read right rest induction =>
      obtain ⟨second, further, ended, came⟩ := bind_eq_ok_iff.mp came
      obtain ⟨result, last, computed, came⟩ := bind_eq_ok_iff.mp came
      rw [List.cons_append, List.cons_append, chainRest, read]
      dsimp only
      rw [bind_apply, ended]
      dsimp only
      rw [bind_apply, computed]
      exact induction _ came

theorem chain_append (came : chain rule place pieces calls = some (.ok left, middle))
    (more : others ≠ []) :
    chain rule place (pieces ++ others) calls = chainRest rule place left others middle := by
  cases pieces with
  | nil => cases came
  | cons first rest =>
      cases rest with
      | nil =>
          cases others with
          | nil => exact absurd rfl more
          | cons sign others =>
              rw [List.cons_append, List.nil_append, chain]
              · rw [bind_apply]
                change Operand.valueOf _ _ _ _ _ = _ at came
                rw [came]
              · exact List.cons_ne_nil _ _
      | cons second rest =>
          rw [chain] at came
          · obtain ⟨start, further, ended, came⟩ := bind_eq_ok_iff.mp came
            rw [List.cons_append, chain]
            · rw [bind_apply, ended]
              exact chain_rest_append came
            · exact List.cons_ne_nil _ _
          · exact List.cons_ne_nil _ _

end

theorem of_tree_chain {rule : ChainRule} (known : rule = .expr ∨ rule = .term)
    (pieces : List (Piece Tree)) (place : Location) :
    ofTree names enter (.node rule.construct pieces place) =
      chain rule place (operands names enter pieces) := by
  rcases known with rfl | rfl <;> rw [ofTree] <;> rfl

theorem operands_append (first second : List (Piece Tree)) :
    operands names enter (first ++ second) =
      operands names enter first ++ operands names enter second := by
  simp only [operands_eq_map, List.map_append]

theorem evaluate_all_comes {value : Tree → Evaluation Value} {arguments : List (String × Tree)}
    (came : ∀ argument ∈ arguments, ∃ left, value argument.2 calls = some (.ok left, calls)) :
    ∃ values, Argument.evaluateAll (arguments.map (Argument.given value)) calls =
      some (.ok values, calls) := by
  induction arguments with
  | nil => exact ⟨[], rfl⟩
  | cons argument arguments induction =>
      obtain ⟨first, ended⟩ := came argument (by simp)
      obtain ⟨values, others⟩ := induction fun other member => came other (by simp [member])
      exact ⟨_, evaluate_all_cons_eq_ok_iff.mpr ⟨first, calls, values, ended, others, rfl⟩⟩

/-- The first argument that fails is the last that is evaluated. -/
theorem evaluate_all_fails {value : Tree → Evaluation Value} {before after : List (String × Tree)}
    {argument : String × Tree} {fault : Fault} {next : Calls}
    (came : ∀ argument ∈ before, ∃ left, value argument.2 calls = some (.ok left, calls))
    (failed : value argument.2 calls = some (.error fault, next)) :
    Argument.evaluateAll ((before ++ argument :: after).map (Argument.given value)) calls =
      some (.error fault, next) := by
  induction before with
  | nil => exact fails_of_first failed
  | cons earlier before induction =>
      obtain ⟨first, ended⟩ := came earlier (by simp)
      exact fails_of_second ended
        (fails_of_first (induction fun other member => came other (by simp [member])))

/-- A call whose names match evaluates its arguments and then begins. -/
theorem of_tree_called {tree : Tree} {name : String} {given : List (String × Tree)}
    {callable : Callable} (called : tree.IsCallOf name given)
    (found : names.callable? name = some callable)
    (complete : callable.TakesNames (given.map Prod.fst)) :
    ofTree names enter tree = (do
      let values ← Argument.evaluateAll (given.map (Argument.given (ofTree names enter)))
      during ⟨name, tree.location⟩ (invoke enter callable values)) := by
  have reduced := (of_tree_eq_reduce tree).trans
    (reduce_call names enter (ofTree names enter) called)
  have same : (given.map (Argument.given (ofTree names enter))).map (·.name) =
      given.map Prod.fst := by
    rw [List.map_map]
    rfl
  have checked : Argument.check callable (given.map (Argument.given (ofTree names enter)))
      tree.location = .ok () := by
    rw [Argument.check_eq_ok_iff, same]
    exact Callable.nothing_amiss_iff.mpr complete
  rw [reduced, callee_eq_ok_iff.mpr found, ofExcept, pure_bind, checked]
  rfl

section

variable {tree inner : Tree} {fault : Fault} {next : Calls}

/-- A chain whose first operand fails does so too. -/
theorem chain_fails_first {rule : ChainRule} {place : Location} {rest : List (Piece Tree)}
    (fits : inner.production = rule.operand)
    (failed : ofTree names enter inner calls = some (.error fault, next)) :
    chain rule place (operands names enter (.tree inner :: rest)) calls =
      some (.error fault, next) := by
  have value := value_of_fitting names enter rule.construct place fits
  rw [← value] at failed
  cases rest with
  | nil => exact failed
  | cons piece rest =>
      cases piece <;> exact fails_of_first failed

/-- What is evaluated on the way to a value fails as a whole where one of its operands does. -/
theorem fails_of_needed (needs : Needs names (ofTree names enter) calls tree inner)
    (failed : ofTree names enter inner calls = some (.error fault, next)) :
    ofTree names enter tree calls = some (.error fault, next) := by
  cases needs with
  | first known fits =>
      rw [of_tree_chain known]
      exact chain_fails_first fits failed
  | @next rule before rest sign operator _ place left known came read allowed fits =>
      rw [of_tree_chain known] at came ⊢
      rw [operands_append, chain_append came (by simp [operands]),
        chain_rest_next read allowed fits]
      exact fails_of_first failed
  | @base _ _ place fits raised =>
      rcases raised with rfl | ⟨exponent, rfl⟩
      · rw [of_tree_factor fits]
        exact failed
      · have value := value_of_fitting names enter .factor place fits
        rw [← value] at failed
        rw [ofTree, reduce]
        exact fails_of_first failed
  | exponent fits raised came =>
      rw [of_tree_power fits raised]
      exact fails_of_second came (fails_of_first failed)
  | simple fits =>
      rw [ofTree, reduce]
      exact (congrFun (if_pos fits) _).trans failed
  | group fits =>
      rw [of_tree_group fits]
      exact failed
  | argument called found complete came =>
      rw [of_tree_called called found complete]
      exact fails_of_first (evaluate_all_fails came failed)

end

variable {scope : Scope} {depth : Nat} {tree : Tree} {name : String} {callable : Callable}
  {given : List (String × Tree)} {kind : Kind} {value : Value} {place : Location}

/-- The tree is a call that begins: the names match, every argument has a value, and one more call
is admitted. -/
structure Begins (depth : Nat) (scope : Scope) (calls : Calls) (tree : Tree) (name : String)
    (given : List (String × Tree)) (callable : Callable) : Prop where
  called : tree.IsCallOf name given
  found : scope.callable? name = some callable
  complete : callable.TakesNames (given.map Prod.fst)
  came : ∀ argument ∈ given, ∃ computed,
    within (depth + 1) scope argument.2 calls = some (.ok computed, calls)
  room : calls.HasRoom

/-- On the way to the value of the tree, a value that has been computed is to be converted to a
declared kind, and it is what the expression at the place came to. -/
inductive Meets : Nat → Scope → Tree → Calls → Kind → Value → Location → Prop where
  | argument {depth : Nat} {scope : Scope} {tree expression : Tree} {calls : Calls}
      {name label : String} {before after : List (String × Tree)} {callable : Callable}
      {bindings : List (String × Value)} {parameter : Parameter} {value : Value}
      (begins : Begins depth scope calls tree name (before ++ (label, expression) :: after)
        callable)
      (earlier : List.Forall₂ (Binds callable (within (depth + 1) scope) calls) before bindings)
      (declared : callable.parameter? label = some parameter)
      (came : within (depth + 1) scope expression calls = some (.ok value, calls)) :
      Meets (depth + 1) scope tree calls parameter.kind value expression.location
  | returned {depth : Nat} {scope : Scope} {tree : Tree} {calls : Calls} {name : String}
      {given : List (String × Tree)} {callable : Callable} {bindings : List (String × Value)}
      {value : Value} (begins : Begins depth scope calls tree name given callable)
      (bound : List.Forall₂ (Binds callable (within (depth + 1) scope) calls) given bindings)
      (came : within depth (scope.bind bindings) callable.body
        (calls.inside ⟨name, tree.location⟩) =
          some (.ok value, calls.inside ⟨name, tree.location⟩)) :
      Meets (depth + 1) scope tree calls callable.returns value callable.body.location
  | body {depth : Nat} {scope : Scope} {tree : Tree} {calls : Calls} {name : String}
      {given : List (String × Tree)} {callable : Callable} {bindings : List (String × Value)}
      {kind : Kind} {value : Value} {place : Location}
      (begins : Begins depth scope calls tree name given callable)
      (bound : List.Forall₂ (Binds callable (within (depth + 1) scope) calls) given bindings)
      (inside : Meets depth (scope.bind bindings) callable.body
        (calls.inside ⟨name, tree.location⟩) kind value place) :
      Meets (depth + 1) scope tree calls kind value place
  | part {depth : Nat} {scope : Scope} {tree inner : Tree} {calls : Calls} {kind : Kind}
      {value : Value} {place : Location}
      (needs : Needs scope.names (within (depth + 1) scope) calls tree inner)
      (inside : Meets (depth + 1) scope inner calls kind value place) :
      Meets (depth + 1) scope tree calls kind value place

/-- The evaluation ends with the value refused for the kind at the place. -/
def Refuses (evaluation : Evaluation Value) (calls : Calls) (kind : Kind) (value : Value)
    (place : Location) : Prop :=
  ∃ notes, evaluation calls =
    some (.error ⟨.incompatibleValue kind value, some place, notes⟩, calls)

theorem convert_unfit (unfit : value.convert? kind = none) :
    located place (value.convert kind) =
      .error ⟨.incompatibleValue kind value, some place, []⟩ := by
  rw [Value.convert, unfit]
  rfl

/-- The first value that its parameter does not take is the last that is converted. -/
theorem convert_all_unfit {before after : List (Argument × Value)} {argument : Argument}
    {bindings : List (String × Value)} {parameter : Parameter}
    (earlier : Argument.convertAll callable before = .ok bindings)
    (declared : callable.parameter? argument.name = some parameter)
    (unfit : value.convert? parameter.kind = none) :
    Argument.convertAll callable (before ++ (argument, value) :: after) =
      .error ⟨.incompatibleValue parameter.kind value, some argument.value.tree.location, []⟩ := by
  induction before generalizing bindings with
  | nil =>
      rw [List.nil_append, Argument.convertAll, declared]
      dsimp only
      rw [convert_unfit unfit]
      rfl
  | cons pair before induction =>
      obtain ⟨taken, converted, more, known, fits, others, _⟩ :=
        convert_all_cons_eq_ok_iff.mp earlier
      rw [List.cons_append, Argument.convertAll, known]
      dsimp only
      rw [located_eq_ok_iff.mpr (convert_eq_ok_iff.mpr fits), induction others]
      rfl

theorem evaluate_all_append {first second : List Argument} {middle next : Calls}
    {firstValues secondValues : List (Argument × Value)}
    (came : Argument.evaluateAll first calls = some (.ok firstValues, middle))
    (others : Argument.evaluateAll second middle = some (.ok secondValues, next)) :
    Argument.evaluateAll (first ++ second) calls =
      some (.ok (firstValues ++ secondValues), next) := by
  induction first generalizing calls firstValues with
  | nil =>
      cases came
      exact others
  | cons argument first induction =>
      obtain ⟨value, further, more, ended, rest, rfl⟩ := evaluate_all_cons_eq_ok_iff.mp came
      exact evaluate_all_cons_eq_ok_iff.mpr ⟨value, further, _, ended, induction rest, rfl⟩

/-- A call in which a value is refused ends with that. -/
theorem during_refuses {call : Call} {body : Evaluation Value} (room : calls.HasRoom)
    (refuses : Refuses body (calls.inside call) kind value place) :
    Refuses (during call body) calls kind value place := by
  obtain ⟨notes, ended⟩ := refuses
  have left : (calls.inside call).pop = calls := rfl
  rw [Refuses, during_of_room room, ended, Option.map_some]
  dsimp only
  rw [left, leaving]
  by_cases outermost : calls.isEmpty = true
  · refine ⟨notes ++ [call.note], ?_⟩
    simp only [Except.mapError, outermost, if_true]
    rfl
  · refine ⟨notes, ?_⟩
    simp only [Except.mapError, outermost]
    rfl

/-- What a call that begins does, with the values of its arguments. -/
theorem within_begun (begins : Begins depth scope calls tree name given callable)
    {values : List (Argument × Value)}
    (came : Argument.evaluateAll (given.map (Argument.given (within (depth + 1) scope))) calls =
      some (.ok values, calls)) :
    within (depth + 1) scope tree calls = during ⟨name, tree.location⟩
      (invoke (fun callable bindings => within depth (scope.bind bindings) callable.body)
        callable values) calls := by
  have entered : within (depth + 1) scope = ofTree scope.names
      (fun callable bindings => within depth (scope.bind bindings) callable.body) := rfl
  rw [entered] at came ⊢
  rw [of_tree_called begins.called begins.found begins.complete, bind_apply, came]

/-- A call whose body, with the arguments bound, refuses a value does so too. -/
theorem refuses_of_invoked {bindings : List (String × Value)}
    (begins : Begins depth scope calls tree name given callable)
    (bound : List.Forall₂ (Binds callable (within (depth + 1) scope) calls) given bindings)
    (refuses : Refuses (do
        let value ← within depth (scope.bind bindings) callable.body
        ofExcept (located callable.body.location (value.convert callable.returns)))
      (calls.inside ⟨name, tree.location⟩) kind value place) :
    Refuses (within (depth + 1) scope tree) calls kind value place := by
  obtain ⟨values, came, converted⟩ := (bound_iff fun _ _ _ => within_restores).mpr ⟨rfl, bound⟩
  rw [Refuses, within_begun begins came]
  apply during_refuses begins.room
  rw [Refuses, invoke, converted]
  exact refuses

/-- A value that does not fit ends the evaluation where it meets its kind. -/
theorem refuses_of_meets (meets : Meets depth scope tree calls kind value place)
    (unfit : value.convert? kind = none) :
    Refuses (within depth scope tree) calls kind value place := by
  induction meets with
  | @argument depth scope _ expression calls _ label before after _ _ _ _ begins earlier declared
      came =>
      obtain ⟨first, ran, converted⟩ := (bound_iff fun _ _ _ => within_restores).mpr ⟨rfl, earlier⟩
      obtain ⟨rest, others⟩ := evaluate_all_comes fun argument member =>
        begins.came argument (List.mem_append_right before (List.mem_cons_of_mem _ member))
      have given : (Argument.given (within (depth + 1) scope) (label, expression)).value.value
          calls = some (.ok _, calls) := came
      have values := evaluate_all_append ran (evaluate_all_cons_eq_ok_iff.mpr
        ⟨_, calls, rest, given, others, rfl⟩)
      rw [Refuses, within_begun begins (by rw [List.map_append, List.map_cons]; exact values)]
      apply during_refuses begins.room
      rw [Refuses, invoke, convert_all_unfit converted declared unfit]
      exact ⟨[], rfl⟩
  | returned begins bound came =>
      apply refuses_of_invoked begins bound
      refine ⟨[], fails_of_second came ?_⟩
      rw [convert_unfit unfit]
      rfl
  | body begins bound inside induction =>
      obtain ⟨notes, ended⟩ := induction unfit
      exact refuses_of_invoked begins bound ⟨notes, fails_of_first ended⟩
  | part needs inside induction =>
      obtain ⟨notes, ended⟩ := induction unfit
      exact ⟨notes, fails_of_needed needs ended⟩

end Evaluation

end Reckon
