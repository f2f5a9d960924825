import Reckon.Proofs.Evaluation.Calls
import Reckon.Proofs.Evaluation.Shaped
import Reckon.Proofs.Number.Reading
import Reckon.Proofs.Scope.Bindings

/-!
Which faults the evaluation of a well-shaped tree can end in. No tree in it is found malformed, and
no literal is refused but an integer that 64 bits do not hold. This is carried through calls of any
depth by what is known of the bodies of callables.
-/

namespace Reckon

/-- A cause that any program may have, whatever its trees look like. -/
def Cause.IsOrdinary : Cause → Prop
  | .malformed .. | .invalidLiteral .. => False
  | _ => True

namespace Fault

/-- A fault with an ordinary cause, or with an integer literal for its cause that is one of those
given, with its place, and that writes a number beyond 64 bits. -/
def IsProper (literals : String → Location → Prop) (fault : Fault) : Prop :=
  match fault.cause with
  | .malformed .. => False
  | .invalidLiteral kind text => kind = .int ∧
      (∃ location, fault.location? = some location ∧ literals text location) ∧
      ∃ value, Number.exactInteger? text.toList = some value ∧ Number.IsBeyond value
  | _ => True

variable {literals : String → Location → Prop} {fault : Fault}

theorem proper_of_ordinary (ordinary : fault.cause.IsOrdinary) : fault.IsProper literals := by
  obtain ⟨cause, location?, notes⟩ := fault
  cases cause <;> first | exact trivial | exact absurd ordinary id

theorem proper_with_note (proper : fault.IsProper literals) (note : Note) :
    (fault.withNote note).IsProper literals := proper

end Fault

section

variable {literals : String → Location → Prop}

theorem located_ordinary {α : Type} {outcome : Except Fault α} {location : Location}
    (ordinary : ∀ fault, outcome = .error fault → fault.cause.IsOrdinary) :
    EndsPure (located location outcome) (fun _ => True) (Fault.IsProper literals) := by
  cases outcome with
  | ok result => exact .ok trivial
  | error fault => exact .error (Fault.proper_of_ordinary (ordinary fault rfl))

theorem convert_proper {value : Value} {kind : Kind} {location : Location} :
    EndsPure (located location (value.convert kind)) (fun _ => True) (Fault.IsProper literals) := by
  apply located_ordinary
  intro fault failed
  unfold Value.convert at failed
  split at failed <;> cases failed
  trivial

theorem compute_proper {operator : Operator} {left right : Value} {location : Location} :
    EndsPure (located location (Value.compute operator left right)) (fun _ => True)
      (Fault.IsProper literals) := by
  apply located_ordinary
  intro fault failed
  unfold Value.compute at failed
  cases computed : Value.binary operator left right with
  | ok result => simp [computed, Except.mapError] at failed
  | error error =>
      simp only [computed, Except.mapError, Except.error.injEq] at failed
      rw [← failed]
      cases error <;> trivial

/-- An integer literal is refused only for its size. -/
theorem int_literal_proper {text : String} {location : Location}
    (read : Shape.IsSigned Scan.IsDigits text) (known : literals text location) :
    EndsPure (located location (Value.read text .int)) (fun _ => True)
      (Fault.IsProper literals) := by
  obtain ⟨value, exact, same⟩ := Number.exact_of_signed_digits read
  unfold Value.read Value.read?
  rw [same, Number.toInt64?]
  by_cases held : Int64.minValue.toInt ≤ value ∧ value ≤ Int64.maxValue.toInt
  · rw [if_pos held]
    exact .ok trivial
  · rw [if_neg held]
    refine .error ⟨rfl, ⟨location, rfl, known⟩, value, exact, ?_⟩
    rw [Number.IsBeyond]
    omega

/-- A literal of a real number is never refused. -/
theorem num_literal_proper {text : String} {location : Location}
    (read : Shape.IsSigned Scan.IsReal text) :
    EndsPure (located location (Value.read text .num)) (fun _ => True)
      (Fault.IsProper literals) := by
  obtain ⟨number, same⟩ := Number.read_num_of_signed_real read
  unfold Value.read Value.read?
  rw [same]
  exact .ok trivial

end

namespace Evaluation

/-- The evaluation ends in no other fault than a proper one. -/
def IsProper (literals : String → Location → Prop) (evaluation : Evaluation Value) : Prop :=
  Ends (fun _ => True) evaluation (fun _ => True) (Fault.IsProper literals)

end Evaluation

namespace Argument

variable {literals : String → Location → Prop}

theorem evaluate_all_ends {fails : Fault → Prop} {arguments : List Argument}
    (values : ∀ argument ∈ arguments,
      Ends (fun _ => True) argument.value.value (fun _ => True) fails) :
    Ends (fun _ => True) (evaluateAll arguments) (fun pairs => pairs.map Prod.fst = arguments)
      fails := by
  induction arguments with
  | nil => exact .pure rfl
  | cons argument arguments induction =>
      refine (values argument (by simp)).bind fun value _ => ?_
      have rest := induction fun other member => values other (by simp [member])
      refine rest.bind fun pairs same => ?_
      exact .pure (by rw [List.map_cons, same])

theorem check_ends {fails : Fault → Prop} {callable : Callable} {arguments : List Argument}
    {location : Location} (mismatch : ∀ missing extra, fails
      ((Fault.of (.argumentMismatch callable.name missing extra)).locate location)) :
    EndsPure (check callable arguments location)
      (fun _ => ∀ argument ∈ arguments, (callable.parameter? argument.name).isSome = true)
      fails := by
  unfold check
  dsimp only
  split
  · next none =>
      refine .ok fun argument member => ?_
      simp only [Bool.and_eq_true, List.isEmpty_iff, List.filter_eq_nil_iff] at none
      have extra := none.2 argument.name (List.mem_map_of_mem member)
      simpa [Option.isSome_iff_ne_none] using extra
  · exact .error (mismatch _ _)

theorem convert_all_proper {callable : Callable} {pairs : List (Argument × Value)}
    (declared : ∀ pair ∈ pairs, (callable.parameter? pair.1.name).isSome = true) :
    EndsPure (convertAll callable pairs) (fun _ => True) (Fault.IsProper literals) := by
  induction pairs with
  | nil => exact .ok trivial
  | cons pair pairs induction =>
      obtain ⟨argument, value⟩ := pair
      obtain ⟨parameter, found⟩ := Option.isSome_iff_exists.mp (declared _ (List.mem_cons_self ..))
      unfold convertAll
      simp only at found
      simp only [found]
      refine convert_proper.bind fun converted _ => ?_
      refine (induction fun other member => declared other (by simp [member])).bind fun _ _ => ?_
      exact .ok trivial

end Argument

namespace Evaluation

variable {literals : String → Location → Prop}

theorem binary_proper {operator : Operator} {left right : Value} {location : Location} :
    IsProper literals (binary operator left right location) :=
  .ofExcept compute_proper

theorem callee_ends {names : Names} {name : String} {location : Location} :
    EndsPure (callee names name location) (fun callable => names.callable? name = some callable)
      (Fault.IsProper literals) := by
  unfold callee
  split
  · next found => exact .ok found
  · refine .error (Fault.proper_of_ordinary ?_)
    split <;> trivial

theorem invoke_proper {enter : Callable → List (String × Value) → Evaluation Value}
    {callable : Callable} {pairs : List (Argument × Value)}
    (declared : ∀ pair ∈ pairs, (callable.parameter? pair.1.name).isSome = true)
    (entered : ∀ bindings, IsProper literals (enter callable bindings)) :
    IsProper literals (invoke enter callable pairs) := by
  refine (Ends.ofExcept (Argument.convert_all_proper declared)).bind fun bindings _ => ?_
  refine (entered bindings).bind fun value _ => ?_
  exact .ofExcept convert_proper

/-- Operators between proper operands. -/
theorem chain_rest_proper {names : Names}
    {enter : Callable → List (String × Value) → Evaluation Value} {rule : ChainRule}
    {signs : List String} (takes : rule.Takes signs)
    {pieces : List (Piece Tree)}
    (chained : Shape.Chained Tree.production rule.operand signs pieces)
    (operands_ : ∀ tree, .tree tree ∈ pieces → tree.production = rule.operand →
      IsProper literals (ofTree names enter tree))
    {sign : String} (allowed : sign ∈ signs) {left : Value} {location : Location} :
    IsProper literals
      (chainRest rule location left (operands names enter (.token sign :: pieces))) := by
  induction chained generalizing sign left with
  | @last tree fits =>
      obtain ⟨operator, read, allowed⟩ := takes sign allowed
      rw [chain_rest_next read allowed fits]
      refine (operands_ tree (by simp) fits).bind fun right _ => ?_
      refine binary_proper.bind fun value _ => ?_
      exact .pure trivial
  | @next tree nextSign rest fits nextAllowed _ induction =>
      obtain ⟨operator, read, allowed⟩ := takes sign allowed
      rw [chain_rest_next read allowed fits]
      refine (operands_ tree (by simp) fits).bind fun right _ => ?_
      refine binary_proper.bind fun value _ => ?_
      exact induction (fun other member => operands_ other (by simp [member])) nextAllowed

theorem chain_proper {names : Names}
    {enter : Callable → List (String × Value) → Evaluation Value} {rule : ChainRule}
    {signs : List String} (takes : rule.Takes signs)
    {pieces : List (Piece Tree)}
    (chained : Shape.Chained Tree.production rule.operand signs pieces)
    (operands_ : ∀ tree, .tree tree ∈ pieces → tree.production = rule.operand →
      IsProper literals (ofTree names enter tree)) {location : Location} :
    IsProper literals (chain rule location (operands names enter pieces)) := by
  cases chained with
  | @last tree fits =>
      rw [chain_last fits]
      exact operands_ tree (by simp) fits
  | @next tree sign rest fits allowed others =>
      rw [chain_next fits]
      refine (operands_ tree (by simp) fits).bind fun left _ => ?_
      exact chain_rest_proper takes others
        (fun other member => operands_ other (by simp [member])) allowed

end Evaluation

/-- The productions whose trees have values. -/
def Production.hasValue : Production → Bool
  | .expr | .term | .factor | .atom | .call | .intLiteral | .numLiteral | .identifier => true
  | _ => false

namespace Tree

/-- A tree that follows the table and whose integer literals are among those given, each with its
place. -/
structure IsKnown (literals : String → Location → Prop) (tree : Tree) : Prop where
  shaped : tree.Everywhere FollowsTable
  literal : ∀ text location, (leaf .intLiteral text location).PartOf tree → literals text location

theorem IsKnown.inside {literals : String → Location → Prop} {production : Production}
    {pieces : List (Piece Tree)} {location : Location}
    (known : (Tree.node production pieces location).IsKnown literals) {tree : Tree}
    (member : .tree tree ∈ pieces) : tree.IsKnown literals :=
  ⟨(everywhere_node.mp known.shaped).2 tree member,
    fun text location part => known.literal text location (.inside member part)⟩

end Tree

namespace Evaluation

variable {literals : String → Location → Prop} {names : Names}
  {enter : Callable → List (String × Value) → Evaluation Value}

theorem call_proper {callee list : Tree} {location : Location}
    (entered : ∀ name callable bindings, names.callable? name = some callable →
      IsProper literals (enter callable bindings))
    (named : callee.production = .identifier) (calleeShaped : callee.FollowsTable)
    (listed : list.production = .arguments) (listShaped : list.Everywhere Tree.FollowsTable)
    (values : ∀ tree, .tree tree ∈ list.pieces → tree.production = .expr →
      IsProper literals (ofTree names enter tree)) :
    IsProper literals (ofTree names enter
      (.node .call [.tree callee, .token "(", .tree list, .token ")"] location)) := by
  obtain ⟨name, nameLocation, rfl, _⟩ := Tree.text_of_name calleeShaped named
  obtain ⟨_, pieces, listLocation⟩ := list
  cases listed
  obtain ⟨allowed, shaped⟩ := Tree.everywhere_node.mp listShaped
  cases allowed with
  | arguments groups =>
      simp only [Tree.pieces] at groups
      obtain ⟨arguments, found, _, inside⟩ := arguments_of_listed names enter groups
        (fun tree member => shaped tree member tree .whole) listLocation
      rw [of_tree_call found]
      refine (Ends.ofExcept callee_ends).bind fun callable calls => ?_
      refine (Ends.ofExcept (Argument.check_ends fun missing extra =>
        Fault.proper_of_ordinary trivial)).bind fun _ declared => ?_
      have valued : ∀ argument ∈ arguments, IsProper literals argument.value.value := by
        intro argument member
        obtain ⟨tree, treeMember, fits, same⟩ := inside argument member
        rw [same]
        exact values tree treeMember fits
      refine (Argument.evaluate_all_ends valued).bind fun pairs same => ?_
      refine during_ends (fun _ _ => trivial) (fun _ _ => trivial)
        (invoke_proper ?_ fun bindings => entered name callable bindings calls)
        (fun _ _ _ _ => Fault.proper_of_ordinary trivial)
        (fun fault note proper => Fault.proper_with_note proper note)
      intro pair member
      refine declared pair.1 ?_
      rw [← same]
      exact List.mem_map_of_mem member

/-- A well-shaped tree with a value ends in proper faults only, if the bodies entered do. -/
theorem of_tree_proper
    (entered : ∀ name callable bindings, names.callable? name = some callable →
      IsProper literals (enter callable bindings))
    {tree : Tree} (known : tree.IsKnown literals) (valued : tree.production.hasValue = true) :
    IsProper literals (ofTree names enter tree) := by
  induction tree using Tree.induct_two_levels with
  | node production pieces location induction further =>
      have inside : ∀ inner, .tree inner ∈ pieces → inner.production.hasValue = true →
          IsProper literals (ofTree names enter inner) := fun inner member =>
        induction inner member (known.inside member)
      have ofKind : ∀ {expected : Production}, expected.hasValue = true → ∀ inner,
          .tree inner ∈ pieces → inner.production = expected →
          IsProper literals (ofTree names enter inner) := by
        intro expected valued inner member fits
        exact inside inner member (by rw [fits]; exact valued)
      obtain ⟨allowed, shaped⟩ := Tree.everywhere_node.mp known.shaped
      cases allowed with
      | intLiteral read =>
          rw [show Tree.node .intLiteral _ location = .leaf .intLiteral _ location from rfl,
            of_tree_leaf (.inl ⟨rfl, rfl⟩)]
          exact .ofExcept (int_literal_proper read (known.literal _ _ .whole))
      | numLiteral read =>
          rw [show Tree.node .numLiteral _ location = .leaf .numLiteral _ location from rfl,
            of_tree_leaf (.inr ⟨rfl, rfl⟩)]
          exact .ofExcept (num_literal_proper read)
      | @identifier name read =>
          rw [show Tree.node .identifier [.token name] location = .leaf .identifier name location
            from rfl, of_tree_name]
          cases names.value? name with
          | some value => exact .pure trivial
          | none =>
              refine .throw (Fault.proper_of_ordinary ?_)
              dsimp only
              split <;> trivial
      | @simple inner fits =>
          rw [of_tree_simple fits]
          refine inside inner (by simp) ?_
          simp only [List.mem_cons, List.not_mem_nil, or_false] at fits
          rcases fits with same | same | same | same <;> rw [same] <;> rfl
      | @group inner fits =>
          rw [of_tree_group fits]
          exact ofKind rfl inner (by simp) fits
      | @factor base fits =>
          rw [of_tree_factor fits]
          exact ofKind rfl base (by simp) fits
      | @power base exponent based raised =>
          rw [of_tree_power based raised]
          refine (ofKind rfl base (by simp) based).bind fun left _ => ?_
          refine (ofKind rfl exponent (by simp) raised).bind fun right _ => ?_
          exact binary_proper
      | term chained =>
          exact chain_proper ChainRule.term_takes chained (ofKind rfl)
      | expr chained =>
          exact chain_proper ChainRule.expr_takes chained (ofKind rfl)
      | @call callee list named listed =>
          have listKnown : list.IsKnown literals := known.inside (by simp)
          refine call_proper entered named (shaped callee (by simp) _ .whole) listed
            listKnown.shaped fun tree member fits => ?_
          have innerKnown : tree.IsKnown literals := by
            obtain ⟨_, groups, _⟩ := list
            exact listKnown.inside member
          exact further list (by simp) tree member innerKnown (by rw [fits]; rfl)
      | newline => cases valued
      | define => cases valued
      | defineAs => cases valued
      | assign => cases valued
      | echo => cases valued
      | defineCallable => cases valued
      | signature => cases valued
      | parameters => cases valued
      | arguments => cases valued

/-- The bodies of callables are expressions that follow the table, with literals as given. -/
def KnowsBodies (literals : String → Location → Prop) (scope : Scope) : Prop :=
  ∀ name callable, scope.callable? name = some callable →
    callable.body.production = .expr ∧ callable.body.IsKnown literals

theorem within_proper {depth : Nat} {scope : Scope} {tree : Tree}
    (bodies : KnowsBodies literals scope) (known : tree.IsKnown literals)
    (valued : tree.production.hasValue = true) : IsProper literals (within depth scope tree) := by
  induction depth generalizing scope tree with
  | zero =>
      rintro calls outcome left _ ⟨⟩
  | succ depth induction =>
      refine of_tree_proper ?_ known valued
      intro name callable bindings found
      obtain ⟨produced, bodyKnown⟩ := bodies name callable found
      refine induction ?_ bodyKnown (by rw [produced]; rfl)
      intro other inner bound
      exact bodies other inner (Scope.callable_of_bind bound)

theorem evaluate_proper {scope : Scope} {tree : Tree} (bodies : KnowsBodies literals scope)
    (known : tree.IsKnown literals) (valued : tree.production.hasValue = true) :
    IsProper literals (tree.evaluate scope) :=
  fun calls outcome left kept ran =>
    within_proper bodies known valued calls outcome left kept ran

end Evaluation

end Reckon
