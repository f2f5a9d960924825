import Mathlib.Data.List.Forall2
import Mathlib.Data.Option.Basic
import Reckon.Proofs.Evaluation.Outcome
import Reckon.Proofs.Evaluation.Parts
import Reckon.Proofs.Evaluation.Shaped

/-!
Two evaluations side by side. The rules of an expression look at a tree for its production, its
texts and its trees, and at a location only to say where a fault is; and they use what the trees do
only through results, faults and one evaluation after the other. So a relation that these respect
holds of what two trees of one structure do as soon as it holds of the calls they make. Nothing else
is asked of the trees: every misshapen one is covered.
-/

namespace Reckon

/-- The same token, or two trees that are related. -/
inductive Piece.Beside {α : Type} (trees : α → α → Prop) : Piece α → Piece α → Prop where
  | token (text : String) : Beside trees (.token text) (.token text)
  | tree {tree other : α} (beside : trees tree other) : Beside trees (.tree tree) (.tree other)

namespace Piece

variable {α : Type} {trees : α → α → Prop} {piece other : Piece α}

theorem token_of_beside (beside : Beside trees piece other) : piece.token? = other.token? := by
  cases beside <;> rfl

theorem is_token_of_beside (beside : Beside trees piece other) (text : String) :
    piece.isToken text = other.isToken text := by
  rw [isToken, isToken, token_of_beside beside]

theorem after_comma_beside {pieces others : List (Piece α)}
    (beside : List.Forall₂ (Beside trees) pieces others) :
    List.Forall₂ (Beside trees) (afterComma pieces) (afterComma others) := by
  cases beside with
  | nil => exact .nil
  | cons first rest =>
      simp only [afterComma, is_token_of_beside first]
      split
      · exact rest
      · exact .cons first rest

/-- Of two such pieces both or none are trees that pass a test which related trees pass alike. -/
theorem filtered_of_beside (beside : Beside trees piece other) (test : α → Bool)
    (alike : ∀ left right, trees left right → test left = test right) :
    (piece.tree?.filter test = none ∧ other.tree?.filter test = none) ∨
    ∃ left right, piece.tree?.filter test = some left ∧ other.tree?.filter test = some right ∧
      trees left right := by
  cases beside with
  | token text => exact .inl ⟨rfl, rfl⟩
  | @tree left right beside =>
      rw [tree?, tree?, Option.filter_some, Option.filter_some, ← alike left right beside]
      split
      · exact .inr ⟨left, right, rfl, rfl, beside⟩
      · exact .inl ⟨rfl, rfl⟩

/-- A tree among the pieces is related to one among the others. -/
theorem beside_of_member {pieces others : List (Piece α)} {tree : α}
    (beside : List.Forall₂ (Beside trees) pieces others) (member : .tree tree ∈ pieces) :
    ∃ other, trees tree other := by
  induction beside with
  | nil => cases member
  | cons first _ induction =>
      rcases List.mem_cons.mp member with rfl | later
      · cases first with
        | tree related => exact ⟨_, related⟩
      · exact induction later

/-- What follows for the trees among the pieces follows for the pieces. -/
theorem forall_beside_imp {next : α → α → Prop} {pieces others : List (Piece α)}
    (beside : List.Forall₂ (Beside trees) pieces others)
    (inside : ∀ tree other, .tree tree ∈ pieces → trees tree other → next tree other) :
    List.Forall₂ (Beside next) pieces others := by
  induction beside with
  | nil => exact .nil
  | cons first _ induction =>
      refine .cons ?_ (induction fun tree other member =>
        inside tree other (List.mem_cons_of_mem _ member))
      cases first with
      | token text => exact .token text
      | tree first => exact .tree (inside _ _ (List.mem_cons_self ..) first)

theorem eq_of_forall_beside {pieces others : List (Piece α)}
    (beside : List.Forall₂ (Beside (· = ·)) pieces others) : pieces = others := by
  rw [← List.forall₂_eq_eq_eq]
  refine beside.imp fun piece other same => ?_
  cases same with
  | token text => rfl
  | tree same => rw [same]

end Piece

/-- Two trees of one structure whose locations are related one by one. -/
inductive Tree.Beside (places : Location → Location → Prop) : Tree → Tree → Prop where
  | node {production : Production} {pieces others : List (Piece Tree)} {place other : Location}
      (here : places place other)
      (inside : List.Forall₂ (Piece.Beside (Beside places)) pieces others) :
      Beside places (.node production pieces place) (.node production others other)

namespace Tree

variable {places : Location → Location → Prop} {tree other : Tree}

theorem production_of_beside (beside : Beside places tree other) :
    tree.production = other.production := by
  cases beside
  rfl

theorem place_of_beside (beside : Beside places tree other) :
    places tree.location other.location := by
  cases beside with
  | node here inside => exact here

theorem pieces_of_beside (beside : Beside places tree other) :
    List.Forall₂ (Piece.Beside (Beside places)) tree.pieces other.pieces := by
  cases beside with
  | node here inside => exact inside

theorem leaf_text_of_beside (beside : Beside places tree other) :
    tree.leafText? = other.leafText? := by
  cases beside with
  | node here inside =>
      match inside with
      | .nil => rfl
      | .cons (.token text) .nil => rfl
      | .cons (.tree _) .nil => rfl
      | .cons (.token text) (.cons _ _) => rfl
      | .cons (.tree _) (.cons _ _) => rfl

theorem name_of_beside (beside : Beside places tree other) : tree.name? = other.name? := by
  rw [name?, name?, production_of_beside beside, leaf_text_of_beside beside]

theorem argument_pieces_beside {pieces others : List (Piece Tree)}
    (inside : List.Forall₂ (Piece.Beside (Beside places)) pieces others) :
    List.Forall₂ (Piece.Beside (Beside places)) (argumentPieces pieces)
      (argumentPieces others) := by
  unfold argumentPieces
  split
  · obtain _ | ⟨_, _ | ⟨_, _ | ⟨list, _ | ⟨_, ⟨⟩⟩⟩⟩⟩ := inside
    obtain _ | ⟨_, given⟩ := list
    exact given
  · next unlisted =>
      split
      · obtain _ | ⟨_, _ | ⟨_, _ | ⟨list, _ | ⟨_, ⟨⟩⟩⟩⟩⟩ := inside
        obtain _ | ⟨_, _⟩ := list
        exact (unlisted _ _ _ _ _ rfl).elim
      · exact .nil

/-- A tree stands beside itself if its locations are related to themselves. -/
theorem beside_itself (within : ∀ inner : Tree, inner.PartOf tree →
    places inner.location inner.location) : Beside places tree tree := by
  induction tree with
  | node production pieces place induction =>
      refine .node (within _ .whole) (List.forall₂_same.mpr ?_)
      intro piece member
      cases piece with
      | token text => exact .token text
      | tree inner =>
          exact .tree
            (induction inner member fun part inside => within part (.inside member inside))

theorem beside_imp {further : Location → Location → Prop}
    (implied : ∀ here there, places here there → further here there)
    (beside : Beside places tree other) : Beside further tree other := by
  induction tree generalizing other with
  | node production pieces place induction =>
      cases beside with
      | node here inside =>
          exact .node (implied _ _ here)
            (Piece.forall_beside_imp inside fun inner _ member => induction inner member)

theorem eq_of_beside (beside : Beside (· = ·) tree other) : tree = other := by
  induction tree generalizing other with
  | node production pieces place induction =>
      cases beside with
      | node here inside =>
          rw [here, Piece.eq_of_forall_beside
            (Piece.forall_beside_imp inside fun inner _ member => induction inner member)]

end Tree

namespace Fault

/-- A fault as the rules of an expression raise it before it is located: not for the bound on calls,
and without a note of a call. -/
structure IsBare (fault : Fault) : Prop where
  unlocated : fault.location? = none
  unbounded : ∀ name limit, fault.cause ≠ .recursionLimit name limit
  unnoted : ∀ name position, .inCall name position ∉ fault.notes

/-- One bare fault, located at related places. -/
inductive RaisedBeside (places : Location → Location → Prop) : Fault → Fault → Prop where
  | located {fault : Fault} {place other : Location} (bare : fault.IsBare)
      (here : places place other) : RaisedBeside places (fault.locate place) (fault.locate other)

theorem bare_of_cause {cause : Cause}
    (unbounded : ∀ name limit, cause ≠ .recursionLimit name limit) :
    (of cause).IsBare := ⟨rfl, unbounded, fun _ _ member => nomatch member⟩

theorem bare_with_note {fault : Fault} {note : Note} (bare : fault.IsBare)
    (other : ∀ name position, note ≠ .inCall name position) : (fault.withNote note).IsBare where
  unlocated := bare.unlocated
  unbounded := bare.unbounded
  unnoted name position member := by
    rcases List.mem_append.mp member with earlier | added
    · exact bare.unnoted name position earlier
    · exact other name position (List.mem_singleton.mp added).symm

theorem malformed_beside {places : Location → Location → Prop} {construct : Production}
    {expected : String} {place other : Location} (here : places place other) :
    RaisedBeside places (malformed construct expected place) (malformed construct expected other) :=
  .located (bare_of_cause (by simp)) here

end Fault

/-- Both come to related results, or to one fault at related places. -/
inductive AlikeOutcomes {α β : Type} (results : α → β → Prop)
    (places : Location → Location → Prop) :
    Except Fault α → Except Fault β → Prop where
  | ok {left : α} {right : β} (same : results left right) :
      AlikeOutcomes results places (.ok left) (.ok right)
  | error {fault other : Fault} (raised : fault.RaisedBeside places other) :
      AlikeOutcomes results places (.error fault) (.error other)

section

variable {places : Location → Location → Prop} {place other : Location} {α β : Type}

theorem AlikeOutcomes.map {γ δ : Type} {results : α → β → Prop} {others : γ → δ → Prop}
    {left : Except Fault α} {right : Except Fault β} {leftMap : α → γ} {rightMap : β → δ}
    (beside : AlikeOutcomes results places left right)
    (mapped : ∀ first second, results first second → others (leftMap first) (rightMap second)) :
    AlikeOutcomes others places (left.map leftMap) (right.map rightMap) := by
  cases beside with
  | ok same => exact .ok (mapped _ _ same)
  | error raised => exact .error raised

theorem AlikeOutcomes.bind {γ δ : Type} {results : α → β → Prop} {others : γ → δ → Prop}
    {left : Except Fault α} {right : Except Fault β} {leftRest : α → Except Fault γ}
    {rightRest : β → Except Fault δ} (beside : AlikeOutcomes results places left right)
    (rest : ∀ first second, results first second →
      AlikeOutcomes others places (leftRest first) (rightRest second)) :
    AlikeOutcomes others places (left >>= leftRest) (right >>= rightRest) := by
  cases beside with
  | ok same => exact rest _ _ same
  | error raised => exact .error raised

theorem malformed_beside {results : α → β → Prop} {construct : Production} {expected : String}
    (here : places place other) : AlikeOutcomes results places
      (.error (.malformed construct expected place))
      (.error (.malformed construct expected other)) :=
  .error (Fault.malformed_beside here)

/-- What is told without a place, located at related ones. -/
theorem located_beside {outcome : Except Fault α}
    (bare : EndsPure outcome (fun _ => True) Fault.IsBare) (here : places place other) :
    AlikeOutcomes (· = ·) places (located place outcome) (located other outcome) := by
  cases outcome with
  | ok result => exact .ok rfl
  | error fault => exact .error (.located (bare.failed fault rfl) here)

theorem compute_bare (operator : Operator) (left right : Value) :
    EndsPure (Value.compute operator left right) (fun _ => True) Fault.IsBare := by
  unfold Value.compute
  cases Value.binary operator left right with
  | ok result => exact .ok trivial
  | error error =>
      apply EndsPure.error
      apply Fault.bare_of_cause
      intro name limit same
      cases error <;> cases same

theorem convert_bare (value : Value) (kind : Kind) :
    EndsPure (value.convert kind) (fun _ => True) Fault.IsBare := by
  unfold Value.convert
  cases value.convert? kind with
  | some converted => exact .ok trivial
  | none => exact .error (Fault.bare_of_cause (by simp))

theorem read_bare (text : String) (kind : Kind) :
    EndsPure (Value.read text kind) (fun _ => True) Fault.IsBare := by
  unfold Value.read
  cases Value.read? text kind with
  | some value => exact .ok trivial
  | none => exact .error (Fault.bare_of_cause (by simp))

end

/-- A relation between evaluations of any type that the same result has to itself, that one fault
raised at related places has, and that related evaluations keep when each is followed by related
ones. -/
structure Parallel (related : ∀ {α : Type}, Evaluation α → Evaluation α → Prop)
    (places : Location → Location → Prop) : Prop where
  pure {α : Type} (result : α) : related (Pure.pure result) (Pure.pure result)
  throw {α : Type} {fault other : Fault} (raised : fault.RaisedBeside places other) :
    related (MonadExcept.throw fault : Evaluation α) (MonadExcept.throw other)
  bind {α β : Type} {left right : Evaluation α} {leftRest rightRest : α → Evaluation β}
    (first : related left right) (rest : ∀ result, related (leftRest result) (rightRest result)) :
    related (left >>= leftRest) (right >>= rightRest)

/-- Trees that look alike to the tree around them, at related places, with related evaluations. An
identifier is evaluated in an atom only; anywhere else it is looked at for its name. -/
structure Operand.Beside (places : Location → Location → Prop)
    (related : Evaluation Value → Evaluation Value → Prop) (left right : Operand) : Prop where
  production : left.tree.production = right.tree.production
  name : left.tree.name? = right.tree.name?
  place : places left.tree.location right.tree.location
  value : left.tree.production ≠ .identifier → related left.value right.value

/-- The same name given to expressions at related places, with related evaluations. -/
structure Argument.Beside (places : Location → Location → Prop)
    (related : Evaluation Value → Evaluation Value → Prop) (left right : Argument) : Prop where
  name : left.name = right.name
  place : places left.value.tree.location right.value.tree.location
  value : related left.value.value right.value.value

/-- Callables that a call cannot tell apart before it enters the body. -/
structure Callable.SameSignature (callable other : Callable) : Prop where
  name : callable.name = other.name
  returns : callable.returns = other.returns
  parameters : callable.parameters = other.parameters

theorem Callable.SameSignature.same_parameter {callable other : Callable}
    (signatures : callable.SameSignature other) (name : String) :
    callable.parameter? name = other.parameter? name := by
  rw [parameter?, signatures.parameters, parameter?]

/-- The names that are looked up stand for the same values, and for callables of the same
signatures. -/
structure Names.Beside (looked : String → Prop) (names others : Names) : Prop where
  values : ∀ name, looked name → names.value? name = others.value? name
  callables : ∀ name, looked name →
    Option.Rel Callable.SameSignature (names.callable? name) (others.callable? name)

section

variable {related : ∀ {α : Type}, Evaluation α → Evaluation α → Prop}
  {places : Location → Location → Prop} {place other : Location}

namespace Parallel

variable {α β γ : Type}

/-- What is told without evaluation, with what depends on it. -/
theorem told (parallel : Parallel related places) {results : α → β → Prop}
    {left : Except Fault α} {right : Except Fault β} {leftRest : α → Evaluation γ}
    {rightRest : β → Evaluation γ} (alike : AlikeOutcomes results places left right)
    (rest : ∀ first second, left = .ok first → right = .ok second → results first second →
      related (leftRest first) (rightRest second)) :
    related (Evaluation.ofExcept left >>= leftRest) (Evaluation.ofExcept right >>= rightRest) := by
  cases alike with
  | ok same => exact rest _ _ rfl rfl same
  | error raised => exact parallel.throw raised

theorem ofExcept (parallel : Parallel related places) {left right : Except Fault α}
    (alike : AlikeOutcomes (· = ·) places left right) :
    related (Evaluation.ofExcept left) (Evaluation.ofExcept right) := by
  cases alike with
  | ok same =>
      subst same
      exact parallel.pure _
  | error raised => exact parallel.throw raised

theorem malformed (parallel : Parallel related places) {construct : Production}
    {expected : String} (here : places place other) :
    related (Evaluation.malformed construct expected place : Evaluation α)
      (Evaluation.malformed construct expected other) :=
  parallel.throw (Fault.malformed_beside here)

theorem binary (parallel : Parallel related places) {operator : Operator} {left right : Value}
    (here : places place other) :
    related (Evaluation.binary operator left right place)
      (Evaluation.binary operator left right other) :=
  parallel.ofExcept (located_beside (compute_bare operator left right) here)

end Parallel

namespace Argument

/-- The names of the arguments are all that is compared with the parameters. -/
theorem check_beside {callable callable' : Callable} (signatures : callable.SameSignature callable')
    {arguments others : List Argument}
    (beside : List.Forall₂ (Argument.Beside places related) arguments others)
    (here : places place other) :
    AlikeOutcomes (· = ·) places (check callable arguments place)
      (check callable' others other) := by
  have given : ∀ (list : List Argument) (name : String),
      list.any (·.name == name) = (list.map (·.name)).any (· == name) := by
    intro list name
    rw [List.any_map]
    rfl
  have names : arguments.map (·.name) = others.map (·.name) := by
    have same : List.Forall₂ (· = ·) (arguments.map (·.name)) (others.map (·.name)) :=
      List.forall₂_map_left_iff.mpr (List.forall₂_map_right_iff.mpr
        (beside.imp fun _ _ alike => alike.name))
    rwa [List.forall₂_eq_eq_eq] at same
  have same : check callable arguments place = check callable' others place := by
    simp only [check, given, names, signatures.name, signatures.parameters,
      signatures.same_parameter]
  rw [same, check, check]
  split
  · exact .ok rfl
  · exact .error (.located (Fault.bare_of_cause (by simp)) here)

/-- A conversion looks at the names and the places of arguments only. -/
theorem convert_all_beside {callable callable' : Callable}
    (signatures : callable.SameSignature callable') {arguments others : List Argument}
    (beside : List.Forall₂ (Argument.Beside places related) arguments others)
    (values : List Value) :
    AlikeOutcomes (· = ·) places (convertAll callable (arguments.zip values))
      (convertAll callable' (others.zip values)) := by
  induction beside generalizing values with
  | nil => exact .ok rfl
  | cons first _ induction =>
      cases values with
      | nil => exact .ok rfl
      | cons value values =>
          rw [List.zip_cons_cons, List.zip_cons_cons, convertAll, convertAll, first.name,
            signatures.same_parameter]
          cases callable'.parameter? _ with
          | none => exact malformed_beside first.place
          | some parameter =>
              apply (located_beside (convert_bare value parameter.kind) first.place).bind
              rintro converted _ rfl
              apply (induction values).bind
              rintro others _ rfl
              exact .ok rfl

end Argument

namespace Evaluation

variable {rule : ChainRule} {pieces others given ungiven : List (Piece Operand)}

theorem value_of_beside (parallel : Parallel related places) (here : places place other)
    {construct expected : Production} (unnamed : expected ≠ .identifier)
    {left right : Piece Operand}
    (beside : Piece.Beside (Operand.Beside places related) left right) :
    related (Operand.valueOf construct place expected left)
      (Operand.valueOf construct other expected right) := by
  cases beside with
  | token text => exact parallel.malformed here
  | tree operands =>
      simp only [Operand.valueOf, ← operands.production]
      split
      · next fits =>
          rw [← fits] at unnamed
          exact operands.value unnamed
      · exact parallel.malformed here

theorem chain_rest_beside (parallel : Parallel related places) (here : places place other)
    (unnamed : rule.operand ≠ .identifier)
    (beside : List.Forall₂ (Piece.Beside (Operand.Beside places related)) pieces others)
    (left : Value) :
    related (chainRest rule place left pieces) (chainRest rule other left others) := by
  fun_induction chainRest rule place left pieces generalizing others with
  | case1 left =>
      cases beside
      exact parallel.pure left
  | case2 left sign rest unread =>
      cases beside with
      | cons signs rests =>
          rw [chainRest, ← Piece.token_of_beside signs, unread]
          exact parallel.malformed here
  | case3 left sign operator read =>
      cases beside with
      | cons signs rests =>
          cases rests
          rw [chainRest, ← Piece.token_of_beside signs, read]
          exact parallel.malformed here
  | case4 left sign operator read right rest induction =>
      cases beside with
      | cons signs rests =>
          cases rests with
          | cons rights rests =>
              rw [chainRest, ← Piece.token_of_beside signs, read]
              apply parallel.bind (value_of_beside parallel here unnamed rights)
              intro operand
              apply parallel.bind (parallel.binary here)
              intro value
              exact induction value rests

theorem chain_beside (parallel : Parallel related places) (here : places place other)
    (unnamed : rule.operand ≠ .identifier)
    (beside : List.Forall₂ (Piece.Beside (Operand.Beside places related)) pieces others) :
    related (chain rule place pieces) (chain rule other others) := by
  rcases beside with _ | ⟨first, _ | ⟨sign, rest⟩⟩
  · exact parallel.malformed here
  · exact value_of_beside parallel here unnamed first
  · apply parallel.bind (value_of_beside parallel here unnamed first)
    intro left
    exact chain_rest_beside parallel here unnamed (.cons sign rest) left

theorem factor_beside (parallel : Parallel related places) (here : places place other)
    (beside : List.Forall₂ (Piece.Beside (Operand.Beside places related)) pieces others) :
    related (factor place pieces) (factor other others) := by
  rcases beside with _ | ⟨base, _ | ⟨caret, _ | ⟨exponent, _ | ⟨further, rest⟩⟩⟩⟩
  · exact parallel.malformed here
  · exact value_of_beside parallel here (by decide) base
  · exact parallel.malformed here
  · simp only [factor, Piece.is_token_of_beside caret]
    split
    · apply parallel.bind (value_of_beside parallel here (by decide) base)
      intro left
      apply parallel.bind (value_of_beside parallel here (by decide) exponent)
      intro right
      exact parallel.binary here
    · exact parallel.malformed here
  · exact parallel.malformed here

/-- Two operands that are the only pieces are related whatever they are. -/
def RelatedAlone (related : Evaluation Value → Evaluation Value → Prop)
    (pieces others : List (Piece Operand)) : Prop :=
  ∀ left right, pieces = [.tree left] → others = [.tree right] → related left.value right.value

theorem atom_beside (parallel : Parallel related places) (here : places place other)
    (alone : RelatedAlone related pieces others)
    (beside : List.Forall₂ (Piece.Beside (Operand.Beside places related)) pieces others) :
    related (atom place pieces) (atom other others) := by
  rcases beside with _ | ⟨opening, _ | ⟨inner, _ | ⟨closing, _ | ⟨further, rest⟩⟩⟩⟩
  · exact parallel.malformed here
  · cases opening with
    | token text =>
        simp only [atom]
        split <;> exact parallel.malformed here
    | tree operands =>
        simp only [atom, operands.production]
        split
        · exact alone _ _ rfl rfl
        · exact parallel.malformed here
  · simp only [atom, Piece.is_token_of_beside opening]
    split <;> exact parallel.malformed here
  · simp only [atom, Piece.is_token_of_beside opening, Piece.is_token_of_beside closing]
    split
    · split
      · exact value_of_beside parallel here (by decide) inner
      · exact parallel.malformed here
    · exact parallel.malformed here
  · simp only [atom, Piece.is_token_of_beside opening]
    split <;> exact parallel.malformed here

theorem literal_beside {tree tree' : Tree} (productions : tree.production = tree'.production)
    (texts : tree.leafText? = tree'.leafText?) (here : places tree.location tree'.location)
    (kind : Kind) : AlikeOutcomes (· = ·) places (literal kind tree) (literal kind tree') := by
  rw [literal, literal, texts, productions]
  cases tree'.leafText? with
  | none => exact malformed_beside here
  | some text => exact located_beside (read_bare text kind) here

theorem identifier_beside {looked : String → Prop} {names names' : Names}
    (namesBeside : names.Beside looked names') {tree tree' : Tree}
    (read : ∀ name, tree.name? = some name → looked name) (named : tree.name? = tree'.name?)
    (here : places tree.location tree'.location) :
    AlikeOutcomes (· = ·) places (identifier names tree) (identifier names' tree') := by
  rw [identifier, identifier, ← named]
  cases own : tree.name? with
  | none => exact malformed_beside here
  | some name =>
      dsimp only
      rw [namesBeside.values name (read name own)]
      cases names'.value? name with
      | some value => exact .ok rfl
      | none =>
          have bare : (Fault.of (.undefinedVariable name)).IsBare :=
            Fault.bare_of_cause (by simp)
          have callables := namesBeside.callables name (read name own)
          generalize names.callable? name = left at callables
          generalize names'.callable? name = right at callables
          cases callables with
          | none => exact .error (.located bare here)
          | some _ => exact .error (.located (Fault.bare_with_note bare (by simp)) here)

theorem argument_name_of_beside {left right : Piece Operand}
    (beside : Piece.Beside (Operand.Beside places related) left right) :
    Argument.name? left = Argument.name? right := by
  cases beside with
  | token text => rfl
  | tree operands => exact operands.name

/-- The groups of an argument list are found alike, whatever the list looks like. -/
theorem arguments_beside (here : places place other)
    (beside : List.Forall₂ (Piece.Beside (Operand.Beside places related)) given ungiven) :
    AlikeOutcomes (List.Forall₂ (Argument.Beside places related)) places
      (Argument.ofPieces place given) (Argument.ofPieces other ungiven) := by
  induction given using Piece.induct_groups generalizing ungiven with
  | nil =>
      cases beside
      exact .ok .nil
  | one name =>
      match ungiven, beside with
      | _, .cons _ .nil => exact malformed_beside here
  | two name mark =>
      match ungiven, beside with
      | _, .cons _ (.cons _ .nil) => exact malformed_beside here
  | group name mark value rest induction =>
      match ungiven, beside with
      | _, .cons names (.cons marks (.cons values rests)) =>
          rw [Argument.of_pieces_group, Argument.of_pieces_group,
            ← argument_name_of_beside names, ← Piece.is_token_of_beside marks]
          cases Argument.name? name with
          | none => exact malformed_beside here
          | some text =>
              rw [Argument.expr?, Argument.expr?]
              rcases Piece.filtered_of_beside values (·.tree.production == .expr)
                (fun _ _ operands => by rw [operands.production]) with
                ⟨left, right⟩ | ⟨operand, _, left, right, operands⟩
              · rw [left, right]
                exact malformed_beside here
              · have unnamed : operand.tree.production ≠ .identifier := by
                  rw [(operand_of_filter left).2]
                  decide
                rw [left, right]
                dsimp only
                split
                · apply (induction (Piece.after_comma_beside rests)).map
                  intro arguments others tail
                  exact .cons ⟨rfl, operands.place, operands.value unnamed⟩ tail
                · exact malformed_beside here

/-- The name and the arguments of a call are found alike. -/
theorem call_parts_beside (here : places place other)
    (beside : List.Forall₂ (Piece.Beside (Operand.Beside places related)) pieces others)
    (inside : List.Forall₂ (Piece.Beside (Operand.Beside places related)) given ungiven) :
    AlikeOutcomes (fun left right : String × List Argument =>
        left.1 = right.1 ∧ List.Forall₂ (Argument.Beside places related) left.2 right.2) places
      (callParts place given pieces) (callParts other ungiven others) := by
  rcases beside with
    _ | ⟨callee, _ | ⟨opening, _ | ⟨list, _ | ⟨closing, _ | ⟨further, rest⟩⟩⟩⟩⟩
  · exact malformed_beside here
  · exact malformed_beside here
  · exact malformed_beside here
  · exact malformed_beside here
  · rw [callParts, callParts, ← argument_name_of_beside callee,
      ← Piece.is_token_of_beside opening, ← Piece.is_token_of_beside closing]
    cases Argument.name? _ with
    | none => exact malformed_beside here
    | some name =>
        rcases Piece.filtered_of_beside list (·.tree.production == .arguments)
          (fun _ _ operands => by rw [operands.production]) with
          ⟨left, right⟩ | ⟨_, _, left, right, operands⟩
        · rw [left, right]
          exact malformed_beside here
        · rw [left, right]
          dsimp only
          split
          · apply (arguments_beside operands.place inside).map
            intro arguments others same
            exact ⟨rfl, same⟩
          · exact malformed_beside here
  · exact malformed_beside here

theorem callee_beside {looked : String → Prop} {names names' : Names}
    (namesBeside : names.Beside looked names') {name : String} (called : looked name)
    (here : places place other) :
    AlikeOutcomes (fun left right => names.callable? name = some left ∧
      names'.callable? name = some right ∧ left.SameSignature right) places
      (callee names name place) (callee names' name other) := by
  rw [callee, callee, namesBeside.values name called]
  have callables := namesBeside.callables name called
  generalize names.callable? name = left at callables ⊢
  generalize names'.callable? name = right at callables ⊢
  cases callables with
  | some signatures => exact .ok ⟨rfl, rfl, signatures⟩
  | none =>
      have bare : (Fault.of (.undefinedFunction name)).IsBare := Fault.bare_of_cause (by simp)
      cases names'.value? name with
      | none => exact .error (.located bare here)
      | some value => exact .error (.located (Fault.bare_with_note bare (by simp)) here)

theorem values_beside (parallel : Parallel related places) {arguments others : List Argument}
    (beside : List.Forall₂ (Argument.Beside places related) arguments others) :
    related (Argument.values arguments) (Argument.values others) := by
  induction beside with
  | nil => exact parallel.pure []
  | cons first _ induction =>
      apply parallel.bind first.value
      intro value
      apply parallel.bind induction
      intro values
      exact parallel.pure _

/-- What a call does once its arguments are converted, or one of them is not. -/
def enterConverted (enter : Callable → List (String × Value) → Evaluation Value)
    (callable : Callable) (converted : Except Fault (List (String × Value))) :
    Evaluation Value := do
  let bindings ← ofExcept converted
  let value ← enter callable bindings
  ofExcept (located callable.body.location (value.convert callable.returns))

theorem enter_converted_beside (parallel : Parallel related places)
    {enter enter' : Callable → List (String × Value) → Evaluation Value}
    {callable callable' : Callable} (returns : callable.returns = callable'.returns)
    (here : places callable.body.location callable'.body.location)
    {converted converted' : Except Fault (List (String × Value))}
    (alike : AlikeOutcomes (· = ·) places converted converted')
    (entered : ∀ bindings, related (enter callable bindings) (enter' callable' bindings)) :
    related (enterConverted enter callable converted)
      (enterConverted enter' callable' converted') := by
  apply parallel.bind (parallel.ofExcept alike)
  intro bindings
  apply parallel.bind (entered bindings)
  intro value
  rw [returns]
  exact parallel.ofExcept (located_beside (convert_bare value _) here)

section

variable {looked : String → Prop} {names names' : Names}
  {enter enter' : Callable → List (String × Value) → Evaluation Value}

/-- Calls are related if they are once their arguments are converted. -/
theorem call_beside (parallel : Parallel related places) (here : places place other)
    (namesBeside : names.Beside looked names')
    (named : ∀ callee rest name, pieces = callee :: rest → Argument.name? callee = some name →
      looked name)
    (beside : List.Forall₂ (Piece.Beside (Operand.Beside places related)) pieces others)
    (inside : List.Forall₂ (Piece.Beside (Operand.Beside places related)) given ungiven)
    (entered : ∀ callee rest name callable callable', pieces = callee :: rest →
      Argument.name? callee = some name → names.callable? name = some callable →
      names'.callable? name = some callable' →
      ∀ converted converted', AlikeOutcomes (· = ·) places converted converted' →
        related (during ⟨name, place⟩ (enterConverted enter callable converted))
          (during ⟨name, other⟩ (enterConverted enter' callable' converted'))) :
    related (call names enter place pieces given) (call names' enter' other others ungiven) := by
  apply parallel.told (call_parts_beside here beside inside)
  rintro ⟨name, arguments⟩ ⟨name', arguments'⟩ found _ ⟨sameName, same⟩
  obtain ⟨callee, list, rfl, calls, _, _⟩ := of_call_parts found
  dsimp only at sameName same
  subst name'
  apply parallel.told (callee_beside namesBeside (named callee _ name rfl calls) here)
  rintro callable callable' _ _ ⟨called, called', signatures⟩
  apply parallel.bind (parallel.ofExcept (Argument.check_beside signatures same here))
  intro _
  rw [Argument.evaluate_all_eq, Argument.evaluate_all_eq, map_eq_pure_bind, map_eq_pure_bind,
    bind_assoc, bind_assoc]
  apply parallel.bind (values_beside parallel same)
  intro values
  rw [pure_bind, pure_bind]
  exact entered callee _ name callable callable' rfl calls called called' _ _
    (Argument.convert_all_beside signatures same values)

/-- What a tree does is related to what a tree that looks alike does, with other evaluations of the
pieces and of the bodies entered, if those are related. -/
theorem reduce_beside (parallel : Parallel related places)
    (namesBeside : names.Beside looked names') {tree tree' : Tree}
    (productions : tree.production = tree'.production)
    (texts : tree.leafText? = tree'.leafText?) (here : places tree.location tree'.location)
    (read : ∀ name, tree.name? = some name → looked name)
    (named : tree.production = .call → ∀ callee rest name, pieces = callee :: rest →
      Argument.name? callee = some name → looked name)
    (alone : tree.production = .atom → RelatedAlone related pieces others)
    (beside : List.Forall₂ (Piece.Beside (Operand.Beside places related)) pieces others)
    (inside : List.Forall₂ (Piece.Beside (Operand.Beside places related)) given ungiven)
    (entered : tree.production = .call → ∀ callee rest name callable callable',
      pieces = callee :: rest → Argument.name? callee = some name →
      names.callable? name = some callable → names'.callable? name = some callable' →
      ∀ converted converted', AlikeOutcomes (· = ·) places converted converted' →
        related (during ⟨name, tree.location⟩ (enterConverted enter callable converted))
          (during ⟨name, tree'.location⟩ (enterConverted enter' callable' converted'))) :
    related (reduce names enter tree pieces given) (reduce names' enter' tree' others ungiven) := by
  have own : tree.name? = tree'.name? := by rw [Tree.name?, Tree.name?, productions, texts]
  unfold reduce
  rw [← productions]
  cases produced : tree.production with
  | expr => exact chain_beside parallel here (by decide) beside
  | term => exact chain_beside parallel here (by decide) beside
  | factor => exact factor_beside parallel here beside
  | atom => exact atom_beside parallel here (alone produced) beside
  | call =>
      exact call_beside parallel here namesBeside (named produced) beside inside (entered produced)
  | intLiteral => exact parallel.ofExcept (literal_beside productions texts here .int)
  | numLiteral => exact parallel.ofExcept (literal_beside productions texts here .num)
  | identifier => exact parallel.ofExcept (identifier_beside namesBeside read own here)
  | varDefine => exact parallel.malformed here
  | varAssign => exact parallel.malformed here
  | echo => exact parallel.malformed here
  | parameters => exact parallel.malformed here
  | signature => exact parallel.malformed here
  | callableDefine => exact parallel.malformed here
  | arguments => exact parallel.malformed here
  | newline => exact parallel.malformed here

/-- The pieces of a tree, each tree among them with what it does. -/
theorem operands_eq_map (pieces : List (Piece Tree)) :
    operands names enter pieces = pieces.map (.map (operand names enter)) := by
  induction pieces with
  | nil => rfl
  | cons piece rest induction =>
      cases piece with
      | token text => rw [operands, List.map_cons, induction, Piece.map]
      | tree tree =>
          rw [operands, List.map_cons, induction, Piece.map]
          rfl

theorem given_operands_eq_map (pieces : List (Piece Tree)) :
    givenOperands names enter pieces =
      (Tree.argumentPieces pieces).map (.map (operand names enter)) := by
  unfold Tree.argumentPieces
  split
  · rw [givenOperands, operands_eq_map]
  · next unlisted => rw [givenOperands.eq_2 names enter pieces unlisted, List.map_nil]

theorem of_tree_eq_reduce (tree : Tree) :
    ofTree names enter tree = reduce names enter tree
      (tree.pieces.map (.map (operand names enter)))
      ((Tree.argumentPieces tree.pieces).map (.map (operand names enter))) := by
  obtain ⟨production, pieces, location⟩ := tree
  rw [ofTree, operands_eq_map, given_operands_eq_map]
  rfl

theorem calls_at_of_call {tree : Tree} {callee : Piece Operand} {rest : List (Piece Operand)}
    {name : String} (produced : tree.production = .call)
    (same : tree.pieces.map (.map (operand names enter)) = callee :: rest)
    (named : Argument.name? callee = some name) : tree.CallsAt name tree.location := by
  obtain ⟨_, pieces, place⟩ := tree
  cases produced
  obtain ⟨first, others, split, rfl, _⟩ := List.map_eq_cons_iff.mp same
  cases split
  cases first with
  | token text => cases named
  | tree inner => exact ⟨inner, others, .whole, named⟩

theorem alone_of_mapped {pieces : List (Piece Tree)} {only : Operand}
    (same : pieces.map (Piece.map (operand names enter)) = [.tree only]) :
    ∃ inner, pieces = [.tree inner] ∧ only = operand names enter inner := by
  obtain ⟨piece, rfl, mapped⟩ := List.map_eq_singleton_iff.mp same
  cases piece with
  | token text => cases mapped
  | tree inner =>
      cases mapped
      exact ⟨inner, rfl, rfl⟩

theorem mapped_beside {trees others : List (Piece Tree)}
    (beside : List.Forall₂ (Piece.Beside (Tree.Beside places)) trees others)
    (alike : ∀ inner inner' : Tree, .tree inner ∈ trees → inner.production ≠ .identifier →
      inner.Beside places inner' →
      related (ofTree names enter inner) (ofTree names' enter' inner')) :
    List.Forall₂ (Piece.Beside (Operand.Beside places related))
      (trees.map (.map (operand names enter))) (others.map (.map (operand names' enter'))) := by
  induction beside with
  | nil => exact .nil
  | cons first _ induction =>
      refine .cons ?_ (induction fun inner inner' member => alike inner inner' (by simp [member]))
      cases first with
      | token text => exact .token text
      | tree inner =>
          exact .tree ⟨Tree.production_of_beside inner, Tree.name_of_beside inner,
            Tree.place_of_beside inner, fun unnamed => alike _ _ (by simp) unnamed inner⟩

/-- What a tree does is related to what a tree of its structure does, with other bodies entered, if
its calls are. -/
theorem of_tree_beside (parallel : Parallel related places) {tree tree' : Tree}
    (namesBeside : names.Beside tree.Mentions names') (beside : tree.Beside places tree')
    (entered : ∀ name place other callable callable', tree.CallsAt name place → places place other →
      names.callable? name = some callable → names'.callable? name = some callable' →
      ∀ converted converted', AlikeOutcomes (· = ·) places converted converted' →
        related (during ⟨name, place⟩ (enterConverted enter callable converted))
          (during ⟨name, other⟩ (enterConverted enter' callable' converted'))) :
    related (ofTree names enter tree) (ofTree names' enter' tree') := by
  -- of the identifiers inside only those are evaluated that the tree reads
  have everywhere : ∀ inner : Tree, inner.PartOf tree →
      (∀ name, inner.name? = some name → tree.Mentions name) → ∀ inner',
      inner.Beside places inner' →
      related (ofTree names enter inner) (ofTree names' enter' inner') := by
    intro inner part
    induction inner using Tree.induct_two_levels with
    | node production pieces place induction further =>
        intro read inner' alike
        have inside : ∀ inner : Tree, .tree inner ∈ pieces → inner.PartOf tree :=
          fun inner member => .trans (.inside member .whole) part
        have unread : ∀ inner : Tree, inner.production ≠ .identifier → ∀ name,
            inner.name? = some name → tree.Mentions name :=
          fun inner unnamed name named => absurd (Tree.production_of_name named) unnamed
        have here := Tree.place_of_beside alike
        have pieced := Tree.pieces_of_beside alike
        rw [of_tree_eq_reduce, of_tree_eq_reduce]
        apply reduce_beside parallel namesBeside (Tree.production_of_beside alike)
          (Tree.leaf_text_of_beside alike) here read
        · intro produced callee rest name same named
          obtain ⟨_, _, itself, named⟩ := calls_at_of_call produced same named
          exact .inr ⟨place, _, _, itself.trans part, named⟩
        · intro produced left right same same'
          cases produced
          obtain ⟨inner, rfl, rfl⟩ := alone_of_mapped same
          obtain ⟨other, alone, rfl⟩ := alone_of_mapped same'
          rw [alone] at pieced
          cases pieced with
          | cons first _ =>
              cases first with
              | tree first =>
                  exact induction inner (by simp) (inside inner (by simp))
                    (fun name named => .inl (.inr ⟨inner, place, part, named⟩)) other first
        · exact mapped_beside pieced fun inner inner' member unnamed =>
            induction inner member (inside inner member) (unread inner unnamed) inner'
        · refine mapped_beside (Tree.argument_pieces_beside pieced)
            fun inner inner' member unnamed => ?_
          obtain ⟨list, listed, given⟩ := Tree.argument_pieces_inside member
          refine further list listed inner given (.trans ?_ (inside list listed))
            (unread inner unnamed) inner'
          obtain ⟨_, groups, _⟩ := list
          exact .inside given .whole
        · intro produced callee rest name callable callable' same named called called'
          obtain ⟨_, _, itself, named⟩ := calls_at_of_call produced same named
          exact entered name place inner'.location callable callable'
            ⟨_, _, itself.trans part, named⟩ here called called'
  exact everywhere tree .whole (fun name named => .inl (.inl named)) tree' beside

end

end Evaluation

end

/-- Two programs end alike: with related results or with related faults, and in related states. -/
inductive EndAlike {σ α β : Type} (faults : Fault → Fault → Prop) (states : σ → σ → Prop)
    (results : α → β → Prop) : Except Fault α × σ → Except Fault β × σ → Prop where
  | ok {left : α} {right : β} {next other : σ} (same : results left right)
      (kept : states next other) :
      EndAlike faults states results (.ok left, next) (.ok right, other)
  | error {fault fault' : Fault} {next other : σ} (alike : faults fault fault')
      (kept : states next other) :
      EndAlike faults states results (.error fault, next) (.error fault', other)

/-- From related states both programs end, and alike, or neither is followed to its end. -/
def ProgramsAlike {σ α β : Type} (faults : Fault → Fault → Prop) (states : σ → σ → Prop)
    (results : α → β → Prop) (left : ExceptT Fault (StateT σ Option) α)
    (right : ExceptT Fault (StateT σ Option) β) : Prop :=
  ∀ state other, states state other →
    Option.Rel (EndAlike faults states results) (left state) (right other)

namespace ProgramsAlike

variable {σ α β γ δ : Type} {faults : Fault → Fault → Prop} {states : σ → σ → Prop}
  {results : α → β → Prop} {others : γ → δ → Prop}
  {left : ExceptT Fault (StateT σ Option) α} {right : ExceptT Fault (StateT σ Option) β}

theorem pure {result : α} {result' : β} (same : results result result') :
    ProgramsAlike faults states results (Pure.pure result) (Pure.pure result') :=
  fun _ _ kept => .some (.ok same kept)

theorem throw {fault fault' : Fault} (alike : faults fault fault') :
    ProgramsAlike faults states results (MonadExcept.throw fault) (MonadExcept.throw fault') :=
  fun _ _ kept => .some (.error alike kept)

theorem bind {leftRest : α → ExceptT Fault (StateT σ Option) γ}
    {rightRest : β → ExceptT Fault (StateT σ Option) δ}
    (first : ProgramsAlike faults states results left right)
    (rest : ∀ result result', results result result' →
      ProgramsAlike faults states others (leftRest result) (rightRest result')) :
    ProgramsAlike faults states others (left >>= leftRest) (right >>= rightRest) := by
  intro state other kept
  rw [bind_apply, bind_apply]
  have ended := first state other kept
  generalize left state = end_ at ended ⊢
  generalize right other = end' at ended ⊢
  cases ended with
  | none => exact .none
  | some alike =>
      cases alike with
      | ok same kept => exact rest _ _ same _ _ kept
      | error alike kept => exact .some (.error alike kept)

theorem map {function : α → γ} {function' : β → δ}
    (first : ProgramsAlike faults states results left right)
    (mapped : ∀ result result', results result result' →
      others (function result) (function' result')) :
    ProgramsAlike faults states others (function <$> left) (function' <$> right) := by
  rw [← bind_pure_comp, ← bind_pure_comp]
  exact first.bind fun result result' same => .pure (mapped result result' same)

/-- Evaluations that end alike are put together alike. -/
theorem parallel {places : Location → Location → Prop} (states : Calls → Calls → Prop)
    (raised : ∀ {fault other : Fault}, fault.RaisedBeside places other → faults fault other) :
    Parallel (fun {_} left right => ProgramsAlike faults states (· = ·) left right) places where
  pure _ := .pure rfl
  throw alike := .throw (raised alike)
  bind first rest := first.bind fun result _ same => by
    cases same
    exact rest result

/-- What is said of the faults and the states of one program beside itself is said of how it
ends. -/
theorem ends {program : ExceptT Fault (StateT σ Option) α} {keeps : σ → Prop} {fails : Fault → Prop}
    (alike : ProgramsAlike (fun fault other => fault = other ∧ fails fault)
      (fun state other => state = other ∧ keeps state) (· = ·) program program) :
    Ends keeps program (fun _ => True) fails := by
  intro state outcome next kept ran
  have ended := alike state state ⟨rfl, kept⟩
  rw [ran] at ended
  cases ended with
  | some alike =>
      cases alike with
      | ok same kept =>
          refine ⟨kept.2, fun _ _ => trivial, ?_⟩
          rintro fault ⟨⟩
      | error faults kept =>
          refine ⟨kept.2, fun _ _ => trivial, ?_⟩
          rintro fault ⟨⟩
          exact faults.2

end ProgramsAlike

end Reckon
