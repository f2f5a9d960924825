import Reckon.Proofs.Grammar.Listings
import Reckon.Proofs.Session.Parallel
import Reckon.Proofs.Session.Targets

/-!
The items of lists. A list has its items as flat pieces: a name, a mark, what is said of the name,
and perhaps a comma. Statements and calls take those pieces apart again. That undoes the flattening
and succeeds on nothing else, and so what they find in a list of a program is what was read there.
-/

namespace Reckon

/-- A name and what is said of it, with a comma behind or without one. -/
structure Group (α : Type) where
  name : α
  value : α
  comma : Bool

namespace Group

section

variable {α β : Type}

def comma? (comma : Bool) : List (Piece α) := if comma then [.token ","] else []

def pieces (mark : String) (group : Group α) : List (Piece α) :=
  .tree group.name :: .token mark :: .tree group.value :: comma? group.comma

/-- The pieces of a list of the groups. -/
def flatten (mark : String) (groups : List (Group α)) : List (Piece α) :=
  groups.flatMap (pieces mark)

def map (f : α → β) (group : Group α) : Group β := ⟨f group.name, f group.value, group.comma⟩

variable {mark : String} {groups : List (Group α)}

theorem flatten_cons (group : Group α) : flatten mark (group :: groups) =
    .tree group.name :: .token mark :: .tree group.value ::
      (comma? group.comma ++ flatten mark groups) := rfl

theorem flatten_map (f : α → β) :
    flatten mark (groups.map (map f)) = (flatten mark groups).map (Piece.map f) := by
  rw [flatten, flatten, List.flatMap_map, List.map_flatMap]
  congr 1
  funext ⟨name, value, comma⟩
  cases comma <;> rfl

/-- A comma behind a group is not taken for the next name. -/
theorem after_comma_flatten (comma : Bool) :
    Piece.afterComma (comma? comma ++ flatten mark groups) = flatten mark groups := by
  cases comma with
  | true => rfl
  | false => cases groups <;> rfl

theorem exists_comma {rest pieces : List (Piece α)} (parted : Piece.afterComma rest = pieces) :
    ∃ comma, rest = comma? comma ++ pieces := by
  cases rest with
  | nil => exact ⟨false, parted⟩
  | cons piece rest =>
      rw [Piece.afterComma] at parted
      split at parted
      · next separated =>
          refine ⟨true, ?_⟩
          rw [Piece.eq_token_of_is_token separated, parted]
          rfl
      · exact ⟨false, parted⟩

end

/-- The group is of the name and the value of the argument. -/
structure Gives (group : Group Operand) (argument : Argument) : Prop where
  named : group.name.tree.name? = some argument.name
  given : group.value = argument.value
  fits : group.value.tree.production = .expr

/-- Arguments are found among pieces if and only if these are flattened groups, and then they are
those of the groups. -/
theorem of_pieces_eq_ok_iff {place : Location} {pieces : List (Piece Operand)}
    {arguments : List Argument} : Argument.ofPieces place pieces = .ok arguments ↔
      ∃ groups, pieces = flatten "=" groups ∧ List.Forall₂ Gives groups arguments := by
  constructor
  · intro found
    induction pieces using Piece.induct_groups generalizing arguments with
    | nil =>
        cases found
        exact ⟨[], rfl, .nil⟩
    | one name => cases found
    | two name mark => cases found
    | group name mark value rest induction =>
        obtain ⟨text, value, tail, named, rfl, fits, rfl, others, rfl⟩ :=
          Evaluation.of_pieces_ok found
        cases name with
        | token name => cases named
        | tree name =>
            obtain ⟨groups, parted, gives⟩ := induction others
            obtain ⟨comma, rfl⟩ := exists_comma parted
            exact ⟨⟨name, value, comma⟩ :: groups, rfl, .cons ⟨named, rfl, fits⟩ gives⟩
  · rintro ⟨groups, rfl, gives⟩
    induction gives with
    | nil => rfl
    | @cons group argument groups arguments first _ induction =>
        have valued : Argument.expr? (.tree group.value) = some group.value := by
          simp [Argument.expr?, Piece.tree?, first.fits]
        have named : Argument.name? (.tree group.name) = some argument.name := first.named
        rw [flatten_cons, Argument.of_pieces_group, after_comma_flatten, induction, named, valued]
        rw [first.given]
        rfl

/-- The name and the kind are identifiers, whether or not the kind is known. -/
structure IsNamed (group : Group Tree) : Prop where
  named : group.name.name?.isSome = true
  declared : group.value.name?.isSome = true

/-- The group is of the name and the kind of the parameter. -/
structure Declares (group : Group Tree) (parameter : Parameter) : Prop where
  named : group.name.name? = some parameter.name
  known : group.value.name?.bind Kind.ofName? = some parameter.kind

theorem Declares.isNamed {group : Group Tree} {parameter : Parameter}
    (declares : group.Declares parameter) : group.IsNamed := by
  obtain ⟨text, declared, _⟩ := Option.bind_eq_some_iff.mp declares.known
  exact ⟨Option.isSome_iff_exists.mpr ⟨_, declares.named⟩,
    Option.isSome_iff_exists.mpr ⟨_, declared⟩⟩

/-- What is wrong with a group behind parameters of the names: its kind is unknown, or else its name
is one of them. -/
inductive Offends (callable : String) (names : List String) (group : Group Tree) :
    Fault → Prop where
  | kind {name text : String} (named : group.name.name? = some name)
      (declared : group.value.name? = some text) (unknown : Kind.ofName? text = none) :
      Offends callable names group ((Fault.unknownType text).locate group.value.location)
  | name {parameter : Parameter} (declares : group.Declares parameter)
      (again : parameter.name ∈ names) : Offends callable names group
        ((Fault.of (.duplicateParameter callable parameter.name)).locate group.name.location)

/-- The names of the parameters differ from each other and from those seen. -/
def Fresh (seen : List String) (parameters : List Parameter) : Prop :=
  (parameters.map (·.name)).Nodup ∧ ∀ parameter ∈ parameters, parameter.name ∉ seen

theorem fresh_cons {seen : List String} {parameter : Parameter} {parameters : List Parameter} :
    Fresh seen (parameter :: parameters) ↔
      parameter.name ∉ seen ∧ Fresh (parameter.name :: seen) parameters := by
  simp only [Fresh, List.map_cons, List.nodup_cons, List.mem_map, List.mem_cons, forall_eq_or_imp,
    not_or, not_exists, not_and]
  grind

/-- The groups declare the parameters, behind names that have been seen; or the fault is that of
the first group that offends. -/
def ComesTo (callable : String) (seen : List String) (groups : List (Group Tree)) :
    Except Fault (List Parameter) → Prop
  | .ok parameters => List.Forall₂ Declares groups parameters ∧ Fresh seen parameters
  | .error fault => ∃ before group after earlier, groups = before ++ group :: after ∧
      List.Forall₂ Declares before earlier ∧ Fresh seen earlier ∧
      group.Offends callable (earlier.map (·.name) ++ seen) fault

section

variable {callable : String} {place : Location} {seen : List String} {groups : List (Group Tree)}

theorem kind_of_text {group : Group Tree} {text : String}
    (declared : group.value.name? = some text) :
    Statement.kindOf .parameters place (.tree group.value) =
      match Kind.ofName? text with
      | some kind => .ok kind
      | none => .error ((Fault.unknownType text).locate group.value.location) := by
  simp only [Statement.kindOf, Statement.nameOf, Piece.tree?, Option.bind_some, declared]
  rfl

/-- The kind of a parameter is looked at before it is asked whether its name is new. -/
theorem parameters_flatten_cons {group : Group Tree} {name text : String}
    (named : group.name.name? = some name) (declared : group.value.name? = some text) :
    Statement.parameters callable place seen (flatten ":" (group :: groups)) =
      match Kind.ofName? text with
      | none => .error ((Fault.unknownType text).locate group.value.location)
      | some kind =>
          if name ∈ seen then
            .error ((Fault.of (.duplicateParameter callable name)).locate group.name.location)
          else (Statement.parameters callable place (name :: seen) (flatten ":" groups)).map
            (⟨name, kind⟩ :: ·) := by
  have target : Statement.nameOf .parameters place "a parameter name" (.tree group.name) =
      .ok name := by
    simp [Statement.nameOf, Piece.tree?, named]
  have marked : (Piece.token ":" : Piece Tree).isToken ":" = true := rfl
  rw [flatten_cons, Statement.parameters_group, if_pos marked, after_comma_flatten, target,
    kind_of_text declared]
  cases Kind.ofName? text with
  | none => rfl
  | some kind =>
      change (if name ∈ seen then _ else _) = _
      split
      · rfl
      · rfl

theorem parameters_of_declared {group : Group Tree} {parameter : Parameter}
    (declares : group.Declares parameter) (new : parameter.name ∉ seen) :
    Statement.parameters callable place seen (flatten ":" (group :: groups)) =
      (Statement.parameters callable place (parameter.name :: seen) (flatten ":" groups)).map
        (parameter :: ·) := by
  obtain ⟨kind, declared, known⟩ := Option.bind_eq_some_iff.mp declares.known
  rw [parameters_flatten_cons declares.named declared, known]
  exact if_neg new

theorem parameters_of_offender {group : Group Tree} {fault : Fault}
    (offends : group.Offends callable seen fault) :
    Statement.parameters callable place seen (flatten ":" (group :: groups)) = .error fault := by
  cases offends with
  | kind named declared unknown => rw [parameters_flatten_cons named declared, unknown]
  | name declares again =>
      obtain ⟨kind, declared, known⟩ := Option.bind_eq_some_iff.mp declares.known
      rw [parameters_flatten_cons declares.named declared, known]
      exact if_pos again

/-- Whether a group offends depends on which names are before it, and not on their order. -/
theorem Offends.of_mem_iff {group : Group Tree} {names others : List String} {fault : Fault}
    (offends : group.Offends callable names fault) (same : ∀ name, name ∈ names ↔ name ∈ others) :
    group.Offends callable others fault := by
  cases offends with
  | kind named declared unknown => exact .kind named declared unknown
  | name declares again => exact .name declares ((same _).mp again)

theorem comes_to_cons {group : Group Tree} {parameter : Parameter}
    {outcome : Except Fault (List Parameter)} (declares : group.Declares parameter)
    (new : parameter.name ∉ seen)
    (others : ComesTo callable (parameter.name :: seen) groups outcome) :
    ComesTo callable seen (group :: groups) (outcome.map (parameter :: ·)) := by
  cases outcome with
  | ok parameters => exact ⟨.cons declares others.1, fresh_cons.mpr ⟨new, others.2⟩⟩
  | error fault =>
      obtain ⟨before, offender, after, earlier, rfl, declared, fresh, offends⟩ := others
      refine ⟨group :: before, offender, after, parameter :: earlier, rfl, .cons declares declared,
        fresh_cons.mpr ⟨new, fresh⟩, offends.of_mem_iff ?_⟩
      simp [or_left_comm]

theorem comes_to (named : ∀ group ∈ groups, group.IsNamed) : ComesTo callable seen groups
    (Statement.parameters callable place seen (flatten ":" groups)) := by
  induction groups generalizing seen with
  | nil => exact ⟨.nil, .nil, by simp⟩
  | cons group groups induction =>
      obtain ⟨name, isName⟩ := Option.isSome_iff_exists.mp (named group (by simp)).named
      obtain ⟨text, isText⟩ := Option.isSome_iff_exists.mp (named group (by simp)).declared
      have offended : ∀ {fault}, group.Offends callable seen fault →
          ComesTo callable seen (group :: groups) (.error fault) := fun offends =>
        ⟨[], group, groups, [], rfl, .nil, ⟨.nil, by simp⟩, offends⟩
      rw [parameters_flatten_cons isName isText]
      cases known : Kind.ofName? text with
      | none => exact offended (.kind isName isText known)
      | some kind =>
          have declares : group.Declares ⟨name, kind⟩ := ⟨isName, by rw [isText]; exact known⟩
          change ComesTo callable seen (group :: groups) (if name ∈ seen then _ else _)
          split
          · next again => exact offended (.name declares again)
          · next new =>
              exact comes_to_cons declares new
                (induction fun other member => named other (List.mem_cons_of_mem _ member))

theorem parameters_of_comes_to {outcome : Except Fault (List Parameter)}
    (comes : ComesTo callable seen groups outcome) :
    Statement.parameters callable place seen (flatten ":" groups) = outcome := by
  cases outcome with
  | ok parameters =>
      obtain ⟨declares, fresh⟩ := comes
      induction declares generalizing seen with
      | nil => rfl
      | cons first _ induction =>
          obtain ⟨new, others⟩ := fresh_cons.mp fresh
          rw [parameters_of_declared first new, induction others]
          rfl
  | error fault =>
      obtain ⟨before, offender, after, earlier, rfl, declares, fresh, offends⟩ := comes
      induction declares generalizing seen with
      | nil => exact parameters_of_offender offends
      | cons first _ induction =>
          obtain ⟨new, others⟩ := fresh_cons.mp fresh
          rw [List.cons_append, parameters_of_declared first new,
            induction others (offends.of_mem_iff (by simp [or_left_comm]))]
          rfl

/-- Whatever the groups are, as long as they are of identifiers, their parameters or the fault of
the first that offends is what is found. -/
theorem parameters_eq_iff {outcome : Except Fault (List Parameter)}
    (named : ∀ group ∈ groups, group.IsNamed) :
    Statement.parameters callable place seen (flatten ":" groups) = outcome ↔
      ComesTo callable seen groups outcome := by
  constructor
  · rintro rfl
    exact comes_to named
  · exact parameters_of_comes_to

theorem parameters_flattened (pieces : List (Piece Tree)) :
    EndsPure (Statement.parameters callable place seen pieces)
      (fun _ => ∃ groups, pieces = flatten ":" groups ∧ ∀ group ∈ groups, group.IsNamed)
      (fun _ => True) := by
  induction pieces using Piece.induct_groups generalizing seen with
  | nil => exact .ok ⟨[], rfl, by simp⟩
  | one target => exact .error trivial
  | two target colon => exact .error trivial
  | group target colon declared rest induction =>
      rw [Statement.parameters_group]
      split
      · next marked =>
          obtain rfl := Piece.eq_token_of_is_token marked
          apply (Statement.name_found _).bind
          rintro name ⟨target, rfl, named⟩
          apply (Statement.kind_found _).bind
          rintro kind ⟨declared, rfl, known⟩
          split
          · exact .error trivial
          · apply induction.bind
            rintro others ⟨groups, parted, areNamed⟩
            obtain ⟨comma, rfl⟩ := exists_comma parted
            refine .ok ⟨⟨target, declared, comma⟩ :: groups, rfl, ?_⟩
            simp only [List.mem_cons, forall_eq_or_imp]
            have declares : Declares ⟨target, declared, comma⟩ ⟨name, kind⟩ := ⟨named, known⟩
            exact ⟨declares.isNamed, areNamed⟩
      · exact .error trivial

/-- Parameters are found among pieces if and only if these are flattened groups of new names and
known kinds, and then they are those of the groups. -/
theorem parameters_eq_ok_iff {pieces : List (Piece Tree)} {parameters : List Parameter} :
    Statement.parameters callable place seen pieces = .ok parameters ↔
      ∃ groups, pieces = flatten ":" groups ∧ ComesTo callable seen groups (.ok parameters) := by
  constructor
  · intro found
    obtain ⟨groups, rfl, named⟩ := (parameters_flattened pieces).returned parameters found
    exact ⟨groups, rfl, (parameters_eq_iff named).mp found⟩
  · rintro ⟨groups, rfl, comes⟩
    exact parameters_of_comes_to comes

end

end Group

namespace ListItem

def group (item : ListItem) : Group Tree :=
  ⟨.ofToken .identifier item.name, item.value, item.comma?.isSome⟩

/-- The argument that an item of a call is, with what its value does. -/
def argument (names : Names) (enter : Callable → List (String × Value) → Evaluation Value)
    (item : ListItem) : Argument := ⟨item.name.text, Evaluation.operand names enter item.value⟩

theorem pieces_eq_group {item : ListItem} (mark : String)
    (followed : ∀ comma, item.comma? = some comma → comma.text = ",") :
    item.pieces mark = item.group.pieces mark := by
  obtain ⟨name, value, comma?⟩ := item
  cases comma? with
  | none => rfl
  | some comma =>
      rw [pieces, Option.map_some, followed comma rfl]
      rfl

end ListItem

/-- Evaluation finds the items in the list that were read in it, all of them and in order. -/
structure FindsItems (tokens : List Token) (list : Tree) : Prop where
  arguments : list.production = .arguments →
    ∃ items, Descent.ReadAs tokens .arguments items list ∧ ∀ names enter place,
      Argument.ofPieces place (Evaluation.operands names enter list.pieces) =
        .ok (items.map (ListItem.argument names enter))
  parameters : list.production = .parameters →
    ∃ items, Descent.ReadAs tokens .parameters items list ∧ ∀ callable place outcome,
      Statement.parameters callable place [] list.pieces = outcome ↔
        Group.ComesTo callable [] (items.map ListItem.group) outcome

section

variable {source : String} {scanned : List Token} {list : Tree}

theorem comma_of_tokens (scans : tokens source = .ok scanned) {comma : Token}
    (member : comma ∈ scanned) (kind : comma.kind = .comma) : comma.text = "," := by
  obtain ⟨body, stop, rfl, proper, stops⟩ := tokens_proper scans
  rcases List.mem_append.mp member with inside | last
  · exact (Token.symbol_of_proper (proper comma inside) (by rw [kind]; rfl)).1
  · cases List.mem_singleton.mp last
    cases kind.symm.trans stops

theorem pieces_of_items (scans : tokens source = .ok scanned) {listing : Listing}
    {items : List ListItem} (read : Descent.ReadAs scanned listing items list)
    (itemized : ∀ item ∈ items, Descent.Itemized scanned listing item) :
    list.pieces = Group.flatten listing.mark (items.map ListItem.group) := by
  obtain ⟨ahead, _, _, _, rfl⟩ := read
  obtain ⟨location, node⟩ := listing.tree_eq_node items (Descent.upcoming ahead)
  rw [node, Group.flatten, List.flatMap_map]
  apply List.flatMap_congr
  intro item member
  apply ListItem.pieces_eq_group
  intro comma behind
  obtain ⟨inside, kind⟩ := (itemized item member).separated comma behind
  exact comma_of_tokens scans inside kind

theorem arguments_of_items (scans : tokens source = .ok scanned) {items : List ListItem}
    (read : Descent.ReadAs scanned .arguments items list)
    (itemized : ∀ item ∈ items, Descent.Itemized scanned .arguments item) (names : Names)
    (enter : Callable → List (String × Value) → Evaluation Value) (place : Location) :
    Argument.ofPieces place (Evaluation.operands names enter list.pieces) =
      .ok (items.map (ListItem.argument names enter)) := by
  rw [Group.of_pieces_eq_ok_iff]
  refine ⟨(items.map ListItem.group).map (Group.map (Evaluation.operand names enter)), ?_, ?_⟩
  · rw [Evaluation.operands_eq_map, Group.flatten_map, pieces_of_items scans read itemized]
    rfl
  · rw [List.map_map, List.forall₂_map_left_iff, List.forall₂_map_right_iff, List.forall₂_same]
    exact fun item member => ⟨rfl, rfl, (itemized item member).valued⟩

theorem parameters_of_items (scans : tokens source = .ok scanned) {items : List ListItem}
    (read : Descent.ReadAs scanned .parameters items list)
    (itemized : ∀ item ∈ items, Descent.Itemized scanned .parameters item) (callable : String)
    (place : Location) (outcome : Except Fault (List Parameter)) :
    Statement.parameters callable place [] list.pieces = outcome ↔
      Group.ComesTo callable [] (items.map ListItem.group) outcome := by
  rw [pieces_of_items scans read itemized]
  apply Group.parameters_eq_iff
  intro group member
  obtain ⟨item, inside, rfl⟩ := List.mem_map.mp member
  obtain ⟨kind, same⟩ := (itemized item inside).valued
  refine ⟨rfl, ?_⟩
  rw [ListItem.group, same]
  rfl

end

/-- Taking a list apart undoes flattening its items, and succeeds on nothing else. Parameters of
unknown kinds or repeated names end with the fault of the first. In a program the items are those
that were read as a series. -/
theorem regrouping_undoes_flattening {source : String} {forest : List Tree}
    (parsed : parse source = .ok forest) :
    (∀ place pieces arguments, Argument.ofPieces place pieces = .ok arguments ↔
      ∃ groups, pieces = Group.flatten "=" groups ∧ List.Forall₂ Group.Gives groups arguments) ∧
    (∀ callable place seen pieces parameters,
      Statement.parameters callable place seen pieces = .ok parameters ↔
        ∃ groups, pieces = Group.flatten ":" groups ∧
          Group.ComesTo callable seen groups (.ok parameters)) ∧
    (∀ callable place seen groups outcome, (∀ group ∈ groups, Group.IsNamed group) →
      (Statement.parameters callable place seen (Group.flatten ":" groups) = outcome ↔
        Group.ComesTo callable seen groups outcome)) ∧
    ∃ scanned, tokens source = .ok scanned ∧
      ∀ tree ∈ forest, ∀ list : Tree, list.PartOf tree → FindsItems scanned list := by
  refine ⟨fun _ _ _ => Group.of_pieces_eq_ok_iff, fun _ _ _ _ _ => Group.parameters_eq_ok_iff,
    fun _ _ _ _ _ named => Group.parameters_eq_iff named, ?_⟩
  obtain ⟨scanned, scans, sourced⟩ := lists_sourced parsed
  refine ⟨scanned, scans, fun tree member list part => ⟨fun listed => ?_, fun listed => ?_⟩⟩
  · obtain ⟨items, read, itemized⟩ := sourced tree member list part .arguments listed
    exact ⟨items, read, arguments_of_items scans read itemized⟩
  · obtain ⟨items, read, itemized⟩ := sourced tree member list part .parameters listed
    exact ⟨items, read, parameters_of_items scans read itemized⟩

/-- A parameter `a` of the kind. -/
def parameterGroup (kind : String) : Group Tree :=
  ⟨.leaf .identifier "a" .unknown, .leaf .identifier kind .unknown, false⟩

/-- A comma follows the last parameter of a definition and no comma the last argument of a call. A
parameter that is repeated with an unknown kind is blamed for the kind. -/
theorem regrouping_of_definition_and_call :
    ∃ forest, parse "f: int(a: int, b: num,) = a\nf(a = 1, b = 2.5)" = .ok forest ∧
      (∃ scanned, tokens "f: int(a: int, b: num,) = a\nf(a = 1, b = 2.5)" = .ok scanned ∧
        ∀ tree ∈ forest, ∀ list : Tree, list.PartOf tree → FindsItems scanned list) ∧
      Statement.parameters "f" .unknown []
          (Group.flatten ":" [parameterGroup "int", parameterGroup "text"]) =
        .error ((Fault.unknownType "text").locate .unknown) := by
  have parsed : ∃ forest, parse "f: int(a: int, b: num,) = a\nf(a = 1, b = 2.5)" = .ok forest :=
    ⟨_, rfl⟩
  obtain ⟨forest, parsed⟩ := parsed
  obtain ⟨_, _, ends, found⟩ := regrouping_undoes_flattening parsed
  have first : (parameterGroup "int").Declares ⟨"a", .int⟩ := ⟨rfl, rfl⟩
  have name : (parameterGroup "text").name.name? = some "a" := rfl
  have kind : (parameterGroup "text").value.name? = some "text" := rfl
  have offends : (parameterGroup "text").Offends "f" ["a"]
      ((Fault.unknownType "text").locate .unknown) := .kind name kind rfl
  refine ⟨forest, parsed, found, (ends "f" .unknown [] _ _ ?_).mpr ?_⟩
  · simp only [List.mem_cons, List.not_mem_nil, or_false, forall_eq_or_imp, forall_eq]
    exact ⟨first.isNamed, rfl, rfl⟩
  · exact ⟨[parameterGroup "int"], parameterGroup "text", [], [⟨"a", .int⟩], rfl,
      .cons first .nil, ⟨by simp, by simp⟩, offends⟩

end Reckon
