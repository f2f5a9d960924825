import Reckon.Proofs.Arithmetic.Syntax
import Reckon.Proofs.Evaluation.Outcome
import Reckon.Proofs.Evaluation.Shaped

/-!
What arithmetic means. The value of a tree is told by recursion on it, whatever its text and its
form in the grammar. Running its text comes to that value, or fails for the cause of there being
none.
-/

namespace Reckon

/-- An operation on what two trees come to, where the left one is looked at first. -/
def Operator.onOutcomes (operator : Operator) (left right : Except Cause Value) :
    Except Cause Value := do
  let left ← left
  let right ← right
  (Value.binary operator left right).mapError Cause.ofArithmetic

/-- The value of a tree in a scope, or why it has none. -/
def Arithmetic.value (scope : Scope) : Arithmetic → Except Cause Value
  | .literal number => .ok (.int number)
  | .name text _ =>
      match scope.value? text with
      | some value => .ok value
      | none => .error (.undefinedVariable text)
  | .binary operator left right => operator.onOutcomes (left.value scope) (right.value scope)

namespace Evaluation

variable {α β : Type}

/-- The evaluation ends as expected, whatever calls are under way, and leaves them as they are. -/
def Comes (evaluation : Evaluation α) (expected : Except Cause α) : Prop :=
  ∀ calls, ∃ outcome, evaluation calls = some (outcome, calls) ∧
    outcome.mapError Fault.cause = expected

theorem comes_pure {result : α} : Comes (pure result) (.ok result) :=
  fun _ => ⟨.ok result, rfl, rfl⟩

theorem comes_throw {fault : Fault} : Comes (throw fault : Evaluation α) (.error fault.cause) :=
  fun _ => ⟨.error fault, rfl, rfl⟩

theorem comes_of_except {outcome : Except Fault α} :
    Comes (ofExcept outcome) (outcome.mapError Fault.cause) := by
  cases outcome with
  | ok result => exact comes_pure
  | error fault => exact comes_throw

theorem comes_bind {first : Evaluation α} {rest : α → Evaluation β} {expected : Except Cause α}
    {others : α → Except Cause β} (comes : Comes first expected)
    (next : ∀ result, Comes (rest result) (others result)) :
    Comes (first >>= rest) (expected >>= others) := by
  intro calls
  obtain ⟨outcome, ran, rfl⟩ := comes calls
  rw [bind_apply, ran]
  cases outcome with
  | ok result => exact next result calls
  | error fault => exact ⟨.error fault, rfl, rfl⟩

theorem binary_comes {operator : Operator} {left right : Value} {location : Location} :
    Comes (binary operator left right location)
      ((Value.binary operator left right).mapError Cause.ofArithmetic) := by
  have same : (located location (Value.compute operator left right)).mapError Fault.cause =
      (Value.binary operator left right).mapError Cause.ofArithmetic := by
    rw [Value.compute]
    cases Value.binary operator left right <;> rfl
  rw [← same]
  exact comes_of_except

theorem operation_comes {first second : Evaluation Value} {left right : Except Cause Value}
    (leftComes : Comes first left) (rightComes : Comes second right) {operator : Operator}
    {location : Location} :
    Comes (do
      let left ← first
      let right ← second
      binary operator left right location) (operator.onOutcomes left right) :=
  comes_bind leftComes fun _ => comes_bind rightComes fun _ => binary_comes

variable (names : Names) (enter : Callable → List (String × Value) → Evaluation Value)

/-- Wherever the tree stands, it ends as expected. -/
def TreeComes (tree : Tree) (expected : Except Cause Value) : Prop :=
  ∀ other : Tree, other.Alike tree → Comes (ofTree names enter other) expected

/-- Wherever the chain stands, it ends as expected. -/
def ChainComes (rule : ChainRule) (pieces : List (Piece Tree)) (expected : Except Cause Value) :
    Prop :=
  ∀ (others : List (Piece Tree)) (location : Location), Tree.AlikePieces others pieces →
    Comes (chain rule location (operands names enter others)) expected

end Evaluation

namespace Forms

open Evaluation

variable {names : Names} {enter : Callable → List (String × Value) → Evaluation Value}
  {expected : Except Cause Value}

/-- All forms end as expected. -/
structure Comes (names : Names) (enter : Callable → List (String × Value) → Evaluation Value)
    (forms : Forms) (expected : Except Cause Value) : Prop where
  sums : ChainComes names enter .expr forms.sums expected
  products : ChainComes names enter .term forms.products expected
  power : TreeComes names enter forms.power expected
  atom : TreeComes names enter forms.atom expected

theorem expr_comes {sums : List (Piece Tree)} (comes : ChainComes names enter .expr sums expected) :
    TreeComes names enter (.node .expr sums .unknown) expected := by
  intro tree alike
  obtain ⟨pieces, location, rfl, inside⟩ := Tree.of_alike_node alike
  exact comes _ _ inside

theorem term_comes {products : List (Piece Tree)}
    (comes : ChainComes names enter .term products expected) :
    TreeComes names enter (term products) expected := by
  intro tree alike
  obtain ⟨pieces, location, rfl, inside⟩ := Tree.of_alike_node alike
  exact comes _ _ inside

theorem group_comes {sums : List (Piece Tree)}
    (comes : ChainComes names enter .expr sums expected) :
    TreeComes names enter (group sums) expected := by
  intro tree alike
  obtain ⟨_, location, rfl, pieces⟩ := Tree.of_alike_node alike
  obtain ⟨_, rfl, opened⟩ := Tree.of_alike_cons_token pieces
  obtain ⟨inner, _, rfl, same, behind⟩ := Tree.of_alike_cons_tree opened
  obtain ⟨_, rfl, closed⟩ := Tree.of_alike_cons_token behind
  rw [Tree.of_alike_nil closed, of_tree_group (Tree.alike_production same)]
  exact expr_comes comes _ same

theorem simple_comes {inner : Tree}
    (fits : inner.production ∈ [.call, .intLiteral, .numLiteral, .identifier])
    (comes : TreeComes names enter inner expected) :
    TreeComes names enter (.node .atom [.tree inner] .unknown) expected := by
  intro tree alike
  obtain ⟨_, location, rfl, pieces⟩ := Tree.of_alike_node alike
  obtain ⟨found, _, rfl, same, behind⟩ := Tree.of_alike_cons_tree pieces
  rw [Tree.of_alike_nil behind, of_tree_simple (by rwa [Tree.alike_production same])]
  exact comes _ same

theorem factor_comes {atom : Tree} (fits : atom.production = .atom)
    (comes : TreeComes names enter atom expected) :
    TreeComes names enter (factor atom) expected := by
  intro tree alike
  obtain ⟨_, location, rfl, pieces⟩ := Tree.of_alike_node alike
  obtain ⟨base, _, rfl, same, behind⟩ := Tree.of_alike_cons_tree pieces
  rw [Tree.of_alike_nil behind, of_tree_factor (by rw [Tree.alike_production same, fits])]
  exact comes _ same

theorem power_comes {base exponent : Tree} (based : base.production = .atom)
    (raised : exponent.production = .factor) {left right : Except Cause Value}
    (leftComes : TreeComes names enter base left)
    (rightComes : TreeComes names enter exponent right) :
    TreeComes names enter (.node .factor [.tree base, .token "^", .tree exponent] .unknown)
      (Operator.pow.onOutcomes left right) := by
  intro tree alike
  obtain ⟨_, location, rfl, pieces⟩ := Tree.of_alike_node alike
  obtain ⟨first, _, rfl, firstSame, signed⟩ := Tree.of_alike_cons_tree pieces
  obtain ⟨_, rfl, raising⟩ := Tree.of_alike_cons_token signed
  obtain ⟨second, _, rfl, secondSame, behind⟩ := Tree.of_alike_cons_tree raising
  rw [Tree.of_alike_nil behind, of_tree_power (by rw [Tree.alike_production firstSame, based])
    (by rw [Tree.alike_production secondSame, raised])]
  exact operation_comes (leftComes _ firstSame) (rightComes _ secondSame)

theorem single_comes {rule : ChainRule} {tree : Tree} (fits : tree.production = rule.operand)
    (comes : TreeComes names enter tree expected) :
    ChainComes names enter rule [.tree tree] expected := by
  intro pieces location alike
  obtain ⟨other, _, rfl, same, behind⟩ := Tree.of_alike_cons_tree alike
  rw [Tree.of_alike_nil behind, chain_last (by rw [Tree.alike_production same, fits])]
  exact comes _ same

theorem chain_operation_comes {rule : ChainRule} {signs : List String} (takes : rule.Takes signs)
    {pieces : List (Piece Tree)}
    (chained : Shape.Chained Tree.production rule.operand signs pieces) {operator : Operator}
    (allowed : rule.allows operator = true) {tree : Tree} (fits : tree.production = rule.operand)
    {left right : Except Cause Value} (leftComes : ChainComes names enter rule pieces left)
    (rightComes : TreeComes names enter tree right) :
    ChainComes names enter rule (pieces ++ [.token operator.symbol, .tree tree])
      (operator.onOutcomes left right) := by
  intro others location alike
  obtain ⟨front, back, rfl, before, behind⟩ := Tree.of_alike_append alike
  obtain ⟨_, rfl, signed⟩ := Tree.of_alike_cons_token behind
  obtain ⟨last, _, rfl, same, closing⟩ := Tree.of_alike_cons_tree signed
  rw [Tree.of_alike_nil closing, chain_operation takes (Tree.chained_of_alike before chained)
    operator.of_symbol_symbol allowed (by rw [Tree.alike_production same, fits])]
  exact operation_comes (leftComes _ _ before) (rightComes _ same)

theorem of_power_comes {power : Tree} (fits : power.production = .factor)
    (comes : TreeComes names enter power expected) :
    (ofPower power).Comes names enter expected := by
  have products : ChainComes names enter .term [.tree power] expected := single_comes fits comes
  have sums : ChainComes names enter .expr [.tree (term [.tree power])] expected :=
    single_comes rfl (term_comes products)
  exact ⟨sums, products, comes, group_comes sums⟩

theorem of_atom_comes {atom : Tree} (fits : atom.production = .atom)
    (comes : TreeComes names enter atom expected) :
    (ofAtom atom).Comes names enter expected := by
  have forms := of_power_comes rfl (factor_comes fits comes)
  exact ⟨forms.sums, forms.products, forms.power, comes⟩

theorem of_sums_comes {sums : List (Piece Tree)}
    (comes : ChainComes names enter .expr sums expected) :
    (ofSums sums).Comes names enter expected := by
  have forms := of_atom_comes rfl (group_comes comes)
  exact ⟨comes, forms.products, forms.power, forms.atom⟩

theorem of_products_comes {products : List (Piece Tree)}
    (comes : ChainComes names enter .term products expected) :
    (ofProducts products).Comes names enter expected := by
  have sums : ChainComes names enter .expr [.tree (term products)] expected :=
    single_comes rfl (term_comes comes)
  have forms := of_atom_comes rfl (group_comes sums)
  exact ⟨sums, comes, forms.power, forms.atom⟩

theorem binary_comes {left right : Forms} (leftSound : left.IsSound) (rightSound : right.IsSound)
    {leftExpected rightExpected : Except Cause Value}
    (leftComes : left.Comes names enter leftExpected)
    (rightComes : right.Comes names enter rightExpected) (operator : Operator) :
    (binary operator left right).Comes names enter
      (operator.onOutcomes leftExpected rightExpected) := by
  have sum (allowed : operator.isAdditive = true) := chain_operation_comes
    ChainRule.expr_takes leftSound.sums.chained allowed rfl leftComes.sums
    (term_comes rightComes.products)
  have product (allowed : operator.isMultiplicative = true) := chain_operation_comes
    ChainRule.term_takes leftSound.products.chained allowed rightSound.power.produced
    leftComes.products rightComes.power
  cases operator with
  | add => exact of_sums_comes (sum rfl)
  | sub => exact of_sums_comes (sum rfl)
  | mul => exact of_products_comes (product rfl)
  | div => exact of_products_comes (product rfl)
  | pow =>
      exact of_power_comes rfl (power_comes leftSound.atom.produced rightSound.power.produced
        leftComes.atom rightComes.power)

end Forms

namespace Evaluation

variable {enter : Callable → List (String × Value) → Evaluation Value}

theorem literal_comes {names : Names} (number : Int64) :
    TreeComes names enter (.leaf .intLiteral (toString number.toInt) .unknown)
      (.ok (.int number)) := by
  intro tree alike
  obtain ⟨place, rfl⟩ := Tree.of_alike_leaf alike
  have read : Value.read (toString number.toInt) .int = .ok (.int number) := by
    rw [Value.read, Value.read?, Number.read_int_text]
    rfl
  rw [of_tree_leaf (.inl ⟨rfl, rfl⟩), read]
  exact comes_of_except

theorem name_comes (scope : Scope) (text : String) (named : Scan.IsName text) :
    TreeComes scope.names enter (.leaf .identifier text .unknown)
      ((Arithmetic.name text named).value scope) := by
  intro tree alike
  obtain ⟨place, rfl⟩ := Tree.of_alike_leaf alike
  rw [of_tree_name, Arithmetic.value]
  have same : scope.names.value? text = scope.value? text := rfl
  rw [same]
  cases scope.value? text with
  | some value => exact comes_pure
  | none =>
      dsimp only
      split <;> exact comes_throw

end Evaluation

namespace Arithmetic

open Evaluation

theorem forms_come (tree : Arithmetic) (scope : Scope)
    (enter : Callable → List (String × Value) → Evaluation Value) :
    tree.forms.Comes scope.names enter (tree.value scope) := by
  induction tree with
  | literal number =>
      exact Forms.of_atom_comes rfl (Forms.simple_comes (by simp) (literal_comes number))
  | name text named =>
      exact Forms.of_atom_comes rfl (Forms.simple_comes (by simp) (name_comes scope text named))
  | binary operator left right leftComes rightComes =>
      exact Forms.binary_comes left.forms_sound right.forms_sound leftComes rightComes operator

theorem evaluate_comes (tree : Arithmetic) (scope : Scope) {parsed : Tree}
    (alike : parsed.Alike tree.expression) : Comes (parsed.evaluate scope) (tree.value scope) := by
  intro calls
  -- no call is entered, so that any depth of calls will do
  obtain ⟨depth, allowed⟩ := allowance_positive scope calls
  rw [Tree.evaluate, allowed]
  exact Forms.expr_comes (tree.forms_come scope _).sums parsed alike calls

/-- Running the text of a tree comes to its value, or fails for the cause of there being none, and
leaves the session as it is. A text that spans do not reach over is not read. -/
theorem run_text (tree : Arithmetic) (session : Session) :
    (Text.byteSize tree.text.toList ≤ Span.maxOffset →
      ∃ outcome : Except Fault Value,
        session.run tree.text = some ((outcome.map some).mapError .faulty, session) ∧
        outcome.mapError Fault.cause = tree.value session.scope) ∧
    (Span.maxOffset < Text.byteSize tree.text.toList →
      ∃ error, session.run tree.text = some (.error (.unreadable error), session) ∧
        error.code.text = "E0002") := by
  refine ⟨fun fits => ?_, fun beyond => ?_⟩
  · obtain ⟨parsed, read, alike⟩ := parse_text fits
    obtain ⟨outcome, ran, comes⟩ := tree.evaluate_comes session.scope alike session.calls
    refine ⟨outcome, ?_, comes⟩
    have expression : parsed.production = .expr := Tree.alike_production alike
    have evaluated : Execution.evaluate parsed session = some (outcome, session) := by
      rw [Execution.evaluate, ran]
      rfl
    have statement : Execution.ofTree parsed = some <$> Execution.evaluate parsed := by
      rw [Execution.ofTree, expression]
    have executed : session.execute [parsed] = some (outcome.map some, session) := by
      rw [Session.execute, Execution.ofTrees, statement, ← bind_pure_comp, bind_assoc, bind_apply,
        evaluated]
      cases outcome <;> rfl
    rw [Session.run, read]
    change (session.execute [parsed]).map _ = _
    rw [executed]
    rfl
  · obtain ⟨error, refused, code⟩ := refuse_text beyond
    exact ⟨error, Session.run_of_parse_error refused session, by rw [code]; rfl⟩

/-- A difference that is taken from an integer, and to a power. -/
theorem run_text_of_difference :
    let tree : Arithmetic := .binary .pow (.binary .sub (.literal 1)
      (.binary .sub (.literal 2) (.literal (-3)))) (.literal 2)
    let session : Session := .start .empty none .empty
    Text.byteSize tree.text.toList ≤ Span.maxOffset ∧
      session.run tree.text = some (.ok (some (.int 16)), session) := by
  intro tree session
  have fits : Text.byteSize tree.text.toList ≤ Span.maxOffset := by decide
  obtain ⟨outcome, ran, comes⟩ := (run_text tree session).1 fits
  have value : tree.value session.scope = .ok (.int 16) := rfl
  rw [value] at comes
  refine ⟨fits, ran.trans ?_⟩
  cases outcome with
  | error fault => cases comes
  | ok result =>
      cases comes
      rfl

theorem text_of_name {text : String} (named : Scan.IsName text) :
    (name text named).text = text := by
  apply String.toList_injective
  rw [Arithmetic.text, words, String.toList_intercalate]
  simp [List.intercalate]

theorem refuse_name {text : String} (named : Scan.IsName text)
    (beyond : Span.maxOffset < Text.byteSize text.toList) (session : Session) :
    ∃ error, session.run (name text named).text = some (.error (.unreadable error), session) ∧
      error.code.text = "E0002" := by
  obtain ⟨error, refused, code⟩ := @refuse_text (name text named) (by rwa [text_of_name])
  exact ⟨error, Session.run_of_parse_error refused session, by rw [code]; rfl⟩

/-- A name that spans do not reach over is not looked up: it is neither given its value nor missed
as undefined. -/
theorem oversized_name_is_not_run :
    ∃ named : Scan.IsName (String.ofList (List.replicate UInt32.size 'a')),
      ¬∃ outcome : Except Fault Value,
        (Session.start .empty none .empty).run (name _ named).text =
          some ((outcome.map some).mapError .faulty, .start .empty none .empty) ∧
        outcome.mapError Fault.cause = (name _ named).value .empty := by
  have named := Scan.letters_are_name (by decide : 0 < UInt32.size)
  refine ⟨named, ?_⟩
  rintro ⟨outcome, ran, _⟩
  have beyond : Span.maxOffset <
      Text.byteSize (String.ofList (List.replicate UInt32.size 'a')).toList := by
    rw [String.toList_ofList, Text.byte_size_replicate]
    decide
  obtain ⟨error, refused, _⟩ := refuse_name named beyond (.start .empty none .empty)
  rw [refused] at ran
  cases outcome <;> cases ran

end Arithmetic

end Reckon
