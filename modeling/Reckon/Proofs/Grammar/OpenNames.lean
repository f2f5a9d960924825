import Reckon.Proofs.Grammar.Prefixes
import Reckon.Proofs.Tree.ArgumentLists

/-!
The names in lists that are still open, told by the tokens alone. They are those that a reading
keeps of the calls it is inside of, so that a name is blamed only for a name in the same list.
-/

namespace Reckon

/-- What is known of open parentheses after some tokens: the names directly inside each that an
equals sign follows, innermost first, and the last token. -/
structure OpenNames where
  names : List (List Token)
  last? : Option Token

namespace OpenNames

def start : OpenNames := ⟨[], none⟩

/-- A parenthesis opens or closes a list, and an equals sign makes the token before it a name of the
innermost one. -/
def next (known : OpenNames) (token : Token) : OpenNames where
  names := match token.kind, known.names, known.last? with
    | .leftParen, names, _ => [] :: names
    | .rightParen, names, _ => names.tail
    | .equals, names :: outer, some name => (names ++ [name]) :: outer
    | _, names, _ => names
  last? := some token

end OpenNames

/-- For each parenthesis that is open after the tokens the names in it that an equals sign follows,
innermost first. -/
def openNames (tokens : List Token) : List (List Token) :=
  (tokens.foldl OpenNames.next .start).names

/-- The names given in what has been opened. -/
def Opening.names : Opening → List Token
  | .group _ _ => []
  | .argument call name _ => call.arguments.reverse.map (·.name) ++ [name]

def Inside.openNames (inside : Inside) : List (List Token) := inside.openings.map Opening.names

namespace Stage

/-- The names given in each construct that is open, innermost first. -/
def openNames : Stage → List (List Token)
  | .parameterDue _ | .parameterNamed _ _ | .parameterKindDue _ _ | .parameterRead _ _ _ => [[]]
  | .atomDue inside | .signRead inside _ | .nameRead inside _ | .atomRead inside _ =>
      inside.openNames
  | .argumentDue inside call | .argumentNamed inside call _ =>
      call.arguments.reverse.map (·.name) :: inside.openNames
  | .start | .named _ | .definition _ | .kindRead _ _ | .signatureRead _ _ => []

/-- The name that only an equals sign will make an argument. -/
def heldName? : Stage → Option Token
  | .argumentNamed _ _ name => some name
  | _ => none

end Stage

/-- What is known from the tokens agrees with what has been read. -/
structure OpenNames.Agrees (known : OpenNames) (stage : Stage) : Prop where
  names : known.names = stage.openNames
  held : ∀ name ∈ stage.heldName?, known.last? = some name

/-- Most stages hold no name back. -/
theorem OpenNames.Agrees.of_none {known : OpenNames} {stage : Stage}
    (names : known.names = stage.openNames) (none : stage.heldName? = none) :
    known.Agrees stage :=
  ⟨names, by simp [none]⟩

namespace Reading

variable {known : OpenNames} {reading next : Reading} {token : Token}

theorem atom_read_names {stage : Stage} {inside : Inside} {atom : Tree}
    (read : AtomRead stage inside atom) : stage.openNames = inside.openNames := by
  cases read with
  | whole => rfl
  | name read => cases read <;> rfl

theorem atom_begins_names {stage : Stage} {inside : Inside} (begins : AtomBegins stage inside) :
    stage.openNames = inside.openNames := by
  cases begins <;> rfl

theorem names_of_takes (agrees : known.Agrees reading.stage) (takes : Takes reading token next) :
    (known.next token).Agrees next.stage := by
  obtain ⟨names, held⟩ := agrees
  cases takes with
  | openGroup begins kind =>
      rw [atom_begins_names begins] at names
      refine .of_none ?_ rfl
      simp [OpenNames.next, kind, names, Stage.openNames, Inside.openNames, Inside.enter,
        Opening.names]
  | number begins leaf =>
      rw [atom_begins_names begins] at names
      generalize found : token.kind = kind at leaf
      refine .of_none ?_ rfl
      cases leaf <;> simp [OpenNames.next, found, names, Stage.openNames]
  | sign begins kind =>
      rw [atom_begins_names begins] at names
      refine .of_none ?_ rfl
      rcases kind with kind | kind <;> simp [OpenNames.next, kind, names, Stage.openNames]
  | signedNumber adjacent leaf =>
      generalize found : token.kind = kind at leaf
      refine .of_none ?_ rfl
      cases leaf <;> simp [OpenNames.next, found, names, Stage.openNames]
  | openCall read kind =>
      rw [atom_read_names (.name read)] at names
      exact .of_none (by simp [OpenNames.next, kind, names, Stage.openNames]) rfl
  | caret read kind =>
      rw [atom_read_names read] at names
      exact .of_none
        (by simp [OpenNames.next, kind, names, Stage.openNames, Inside.openNames]) rfl
  | multiplicative read kind | additive read kind =>
      rw [atom_read_names read] at names
      refine .of_none ?_ rfl
      rcases kind with kind | kind <;>
        simp [OpenNames.next, kind, names, Stage.openNames, Inside.openNames]
  | endLine read kind | endProgram read kind | closeGroup read kind | argumentComma read kind
  | lastArgument read kind =>
      rw [atom_read_names read] at names
      refine .of_none ?_ rfl
      simp [OpenNames.next, kind, names, Stage.openNames, Inside.openNames, Opening.names]
  | argumentName kind =>
      exact ⟨by simp [OpenNames.next, kind, names, Stage.openNames], by rintro name ⟨⟩; rfl⟩
  | argumentEquals kind =>
      have last := held _ rfl
      refine .of_none ?_ rfl
      simp [OpenNames.next, kind, names, last, Stage.openNames, Inside.openNames, Inside.enter,
        Opening.names]
  | _ =>
      refine .of_none ?_ rfl
      simp [OpenNames.next, Stage.openNames, Inside.openNames, Inside.start, *]

theorem names_of_run {tokens : List Token} (agrees : known.Agrees reading.stage)
    (ran : reading.run tokens = .ok next) :
    (tokens.foldl OpenNames.next known).Agrees next.stage := by
  induction tokens generalizing reading known with
  | nil =>
      cases ran
      exact agrees
  | cons token tokens induction =>
      obtain ⟨middle, takes, rest⟩ := takes_of_run_cons ran
      exact induction (names_of_takes agrees takes) rest

theorem open_names_of_run {tokens : List Token} (ran : Reading.start.run tokens = .ok next) :
    openNames tokens = next.stage.openNames :=
  (@names_of_run .start start next tokens (.of_none rfl rfl) ran).names

/-- The names of the innermost call are those of the innermost list. -/
theorem given_names_eq {stage : Stage} (some : stage.givenNames ≠ []) :
    ∃ outer, stage.openNames = stage.givenNames :: outer := by
  have inside {inside : Inside} (some : inside.givenNames ≠ []) :
      ∃ outer, inside.openNames = inside.givenNames :: outer := by
    obtain ⟨head, openings, chain⟩ := inside
    cases openings with
    | nil => exact absurd rfl some
    | cons opening openings =>
        cases opening with
        | group => exact absurd rfl some
        | argument => exact ⟨_, rfl⟩
  cases stage with
  | nameRead | atomRead => exact inside some
  | argumentDue => exact ⟨_, rfl⟩
  | _ => exact absurd rfl some

end Reading

/-- What is known of open parentheses is about these tokens. -/
structure OpenNames.Within (all : List Token) (known : OpenNames) : Prop where
  names : ∀ names ∈ known.names, ∀ name ∈ names, name ∈ all
  last : ∀ name ∈ known.last?, name ∈ all

theorem OpenNames.Within.next {all : List Token} {known : OpenNames} {token : Token}
    (within : known.Within all) (member : token ∈ all) : (known.next token).Within all := by
  refine ⟨?_, fun name last => by cases last; exact member⟩
  unfold OpenNames.next
  split
  · intro names among
    rcases List.mem_cons.mp among with rfl | among
    · simp
    · exact within.names names among
  · exact fun names among => within.names names (List.mem_of_mem_tail among)
  · next names outer name _ known last =>
      intro others among other given
      rcases List.mem_cons.mp among with rfl | among
      · rcases List.mem_append.mp given with given | given
        · exact within.names names (by simp [known]) other given
        · rw [List.mem_singleton.mp given]
          exact within.last name last
      · exact within.names others (by simp [known, among]) other given
  · exact within.names

theorem mem_of_open_names {tokens names : List Token} {name : Token}
    (among : names ∈ openNames tokens) (given : name ∈ names) : name ∈ tokens := by
  have within : ∀ (behind : List Token) (known : OpenNames), known.Within tokens →
      behind ⊆ tokens → (behind.foldl OpenNames.next known).Within tokens := by
    intro behind
    induction behind with
    | nil => exact fun known within _ => within
    | cons token behind induction =>
        exact fun known within subset =>
          induction _ (within.next (subset List.mem_cons_self))
            fun other member => subset (List.mem_cons_of_mem _ member)
  exact (within tokens .start ⟨by simp [OpenNames.start], by simp [OpenNames.start]⟩
    (List.Subset.refl _)).names names among name given

/-- A name is blamed for being given twice only if it is the first in its list that is the same as a
name before it in that list. -/
theorem Reading.repeated_in_open_list {scanned : List Token} {error : ParseError}
    (failed : Reading.start.run scanned = .error error)
    (repeated : error.code = .repeatedArgument) :
    ∃ before token rest names outer name, scanned = before ++ token :: rest ∧
      openNames before = names :: outer ∧ RepeatsFirst names name ∧ name ∈ before ∧
      error = .repeatedArgument name.text name.location := by
  obtain ⟨before, token, rest, reading, rfl, ran, refused⟩ := Reading.refused_of_run_error failed
  have blames := Reading.blames_of_step_error refused
  cases blames with
  | unexpected expected =>
      refine absurd ?_ (ParseError.code_of_expectation expected)
      rw [show ParseError.codeOf expected = .repeatedArgument from repeated]
      decide
  | unclosedParen => cases repeated
  | detachedSign => cases repeated
  | repeatedArgument first =>
      have some : reading.stage.givenNames ≠ [] := fun none => by
        rw [none] at first
        cases first
      obtain ⟨outer, names⟩ := Reading.given_names_eq some
      have opened := (Reading.open_names_of_run ran).trans names
      have among := mem_of_open_names (opened ▸ List.mem_cons_self) (repeats_first first).member
      exact ⟨before, token, rest, _, outer, _, rfl, opened, repeats_first first, among, rfl⟩

/-- An error that blames a repeated name has the position of the name. -/
theorem located_repeated {source : String} {scanned : List Token} {error : ParseError}
    (scans : tokens source = .ok scanned) (failed : Reading.start.run scanned = .error error)
    (repeated : error.code = .repeatedArgument) : error.located (.ofString source) = error := by
  obtain ⟨before, token, rest, names, outer, name, rfl, _, _, among, same⟩ :=
    Reading.repeated_in_open_list failed repeated
  exact located_at_proper_token scans (List.mem_append_left _ among)
    (proper_before scans name among) (by rw [same]; rfl)

/-- Whatever the text, a name is blamed for being given twice only if it is the first in its list
that is the same as a name before it in that list. -/
theorem blamed_in_open_list {source : String} {scanned : List Token} {error : ParseError}
    (scans : tokens source = .ok scanned) (failed : parse source = .error error)
    (repeated : error.code = .repeatedArgument) :
    ∃ before token rest names outer name, scanned = before ++ token :: rest ∧
      openNames before = names :: outer ∧ RepeatsFirst names name ∧
      error = .repeatedArgument name.text name.location := by
  obtain ⟨raw, ran, rfl⟩ := run_of_parse_error scans failed
  rw [located_repeated scans ran repeated]
  obtain ⟨before, token, rest, names, outer, name, split, opened, first, _, same⟩ :=
    Reading.repeated_in_open_list ran repeated
  exact ⟨before, token, rest, names, outer, name, split, opened, first, same⟩

end Reckon
