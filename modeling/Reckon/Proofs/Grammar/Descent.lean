import Reckon.Proofs.Grammar.Steps

/-!
The grammar read by descent. Every construct has a reader, which takes its tokens from those ahead
and calls the readers of its parts. Calls may be nested as deeply as is allowed, and a reader whose
calls would go deeper has no outcome. A reader that fails leaves ahead what it has not passed.
-/

namespace Reckon

/-- A reader starts with the tokens ahead and ends with those then ahead and with a result or an
error, unless it is cut off. -/
abbrev Descent (α : Type) := ExceptT ParseError (StateT (List Token) Option) α

/-- The lists that calls and signatures have in parentheses. -/
inductive Listing where
  | arguments
  | parameters

namespace Listing

/-- The token between the name of an item and what is said of it. -/
def sign : Listing → TokenKind
  | .arguments => .equals
  | .parameters => .colon

def mark : Listing → String
  | .arguments => "="
  | .parameters => ":"

def production : Listing → Production
  | .arguments => .arguments
  | .parameters => .parameters

/-- The tree of the items that are read where the token comes next. -/
def tree (listing : Listing) (items : List ListItem) (start : Token) : Tree :=
  finishList listing.production listing.mark items.reverse start

end Listing

/-- The chains of operands: sums of products, and products of factors. -/
inductive Level where
  | sum
  | product

namespace Level

def joins : Level → TokenKind → Bool
  | .sum => TokenKind.isAdditive
  | .product => TokenKind.isMultiplicative

def production : Level → Production
  | .sum => .expr
  | .product => .term

end Level

namespace Descent

/-- The token that comes next, which is the end of input once nothing is ahead. -/
def upcoming (ahead : List Token) : Token := ahead.headD ⟨.eof, "", .unknown⟩

def current : Descent Token := upcoming <$> get

/-- The token behind the one that comes next. -/
def following : Descent Token := (fun ahead => upcoming ahead.tail) <$> get

/-- Passes a token. The end of input is not passed. -/
def advance : Descent Token := do
  let token ← current
  if token.kind ≠ .eof then modify List.tail
  return token

def eat (kind : TokenKind) : Descent (Option Token) := do
  let token ← current
  if token.kind = kind then some <$> advance else return none

def unexpected {α : Type} (expected : Expectation) (token : Token) : Descent α :=
  throw (.unexpected expected token.kind token.location)

def expect (kind : TokenKind) : Descent Token := do
  let token ← current
  if token.kind = kind then advance else unexpected (.token kind) token

def name : Descent Token := do
  match ← eat .ident with
  | some name => return name
  | none => unexpected (.production .identifier) (← current)

def closing (opening : Token) : Descent Token := do
  match ← eat .rightParen with
  | some closing => return closing
  | none =>
      let found ← current
      throw (.unclosedParen opening.span found.kind found.location)

def identifier : Descent Tree := .ofToken .identifier <$> name

/-- The leaf of a number, with the text of the sign before it. -/
def numberLeaf (production : Production) (number : Token) : Option Token → Tree
  | none => .ofToken production number
  | some sign =>
      .leaf production (sign.text ++ number.text) (sign.location.through number.location)

/-- A number, whose sign has been taken if it has one. -/
def number (sign? : Option Token) : Descent Tree := do
  let token ← current
  match token.kind with
  | .int => (numberLeaf .intLiteral · sign?) <$> advance
  | .num => (numberLeaf .numLiteral · sign?) <$> advance
  | _ => unexpected (.production .atom) token

def literal : Descent Tree := do
  let token ← current
  if token.kind.isAdditive then
    let sign ← advance
    number (some sign)
  else number none

/-- The tree of a name with a list in parentheses behind it. -/
def enclosed (production : Production) (name opening : Token) (list : Tree) (closed : Token) :
    Tree :=
  .node production
    [.tree (.ofToken .identifier name), .token opening.text, .tree list, .token closed.text]
    (name.location.through closed.location)

/-- What there is a reader for, with what that returns. -/
inductive Construct : Type → Type where
  | identifier : Construct Tree
  | literal : Construct Tree
  /-- An expression or a term. -/
  | chain (level : Level) : Construct Tree
  /-- The operators and operands behind the last operand of a chain. -/
  | chainRest (level : Level) (earlier : List (Tree × Token)) (last : Tree) : Construct Tree
  | operand (level : Level) : Construct Tree
  | factor : Construct Tree
  | atom : Construct Tree
  | call : Construct Tree
  | argumentList : Construct Tree
  /-- The items of a list up to its closing parenthesis, or up to one that no comma follows. -/
  | series (listing : Listing) : Construct (List ListItem)
  | item (listing : Listing) : Construct (Token × Tree)
  | itemValue (listing : Listing) : Construct Tree
  | parameterList : Construct Tree
  | signature : Construct Tree
  /-- The expression that ends a statement, behind what has been taken of that. -/
  | headed (head : Head) : Construct Tree
  | echo : Construct Tree
  | assignment : Construct Tree
  /-- What begins with a name and a colon. -/
  | definition : Construct Tree
  | statement : Construct Tree
  /-- The trees of statements and newlines up to the end of input. -/
  | program : Construct (List Tree)

/-- The reader of a construct, given the readers of its parts. -/
def body (read : {β : Type} → Construct β → Descent β) {α : Type} (construct : Construct α) :
    Descent α :=
  match construct with
  | .identifier => identifier
  | .literal => literal
  | .chain level => do
      let first ← read (.operand level)
      read (.chainRest level [] first)
  | .chainRest level earlier last => do
      let token ← current
      if level.joins token.kind then
        let operator ← advance
        let next ← read (.operand level)
        read (.chainRest level ((last, operator) :: earlier) next)
      else return finishChain level.production earlier last
  | .operand .sum => read (.chain .product)
  | .operand .product => read .factor
  | .factor => do
      let base ← read .atom
      match ← eat .caret with
      | some _ =>
          let exponent ← read .factor
          return .power base exponent
      | none => return .factorOf base
  | .atom => do
      let token ← current
      match token.kind with
      | .leftParen =>
          let opening ← advance
          let inner ← read (.chain .sum)
          let closed ← closing opening
          return .group opening inner closed
      | .ident =>
          let next ← following
          if next.kind = .leftParen then .atomOf <$> read .call else .atomOf <$> read .identifier
      | .int | .num => .atomOf <$> read .literal
      | .plus | .minus =>
          let next ← following
          if next.kind.isNumeric && token.isAdjacent next then .atomOf <$> read .literal
          else throw (.detachedSign token.kind token.location)
      | _ => unexpected (.production .atom) token
  | .call => do
      let callee ← name
      let opening ← expect .leftParen
      let list ← read .argumentList
      let closed ← closing opening
      return enclosed .call callee opening list closed
  | .argumentList => do
      let start ← current
      let items ← read (.series .arguments)
      match firstRepeated [] (items.map (·.name)) with
      | some again => throw (.repeatedArgument again.text again.location)
      | none => return Listing.arguments.tree items start
  | .series listing => do
      let token ← current
      if token.kind = .rightParen then return []
      else
        let (name, value) ← read (.item listing)
        match ← eat .comma with
        | some comma =>
            let others ← read (.series listing)
            return ⟨name, value, some comma⟩ :: others
        | none => return [⟨name, value, none⟩]
  | .item listing => do
      let name ← name
      let _ ← expect listing.sign
      let value ← read (.itemValue listing)
      return (name, value)
  | .itemValue .arguments => read (.chain .sum)
  | .itemValue .parameters => read .identifier
  | .parameterList => do
      let start ← current
      let items ← read (.series .parameters)
      return Listing.parameters.tree items start
  | .signature => do
      let kind ← name
      let opening ← expect .leftParen
      let list ← read .parameterList
      let closed ← closing opening
      return enclosed .signature kind opening list closed
  | .headed head => head.finish <$> read (.chain .sum)
  | .echo => do
      let keyword ← expect .echo
      read (.headed (.echo keyword))
  | .assignment => do
      let name ← name
      let _ ← expect .equals
      read (.headed (.assign name))
  | .definition => do
      let name ← name
      let _ ← expect .colon
      let token ← current
      let next ← following
      match token.kind, next.kind with
      | .equals, _ =>
          let _ ← advance
          read (.headed (.define name none))
      | .ident, .leftParen =>
          let signature ← read .signature
          let _ ← expect .equals
          read (.headed (.callable name signature))
      | .ident, .equals =>
          let kind ← Descent.name
          let _ ← advance
          read (.headed (.define name (some kind)))
      | .ident, _ => unexpected .equalsOrParameters next
      | _, _ => unexpected .typeOrEquals token
  | .statement => do
      let token ← current
      let next ← following
      match token.kind, next.kind with
      | .echo, _ => read .echo
      | .ident, .colon => read .definition
      | .ident, .equals => read .assignment
      | _, _ => read (.chain .sum)
  | .program => do
      let token ← current
      match token.kind with
      | .eof => return []
      | .newline =>
          let newline ← advance
          let others ← read .program
          return .ofToken .newline newline :: others
      | _ =>
          let tree ← read .statement
          let found ← current
          match found.kind with
          | .newline | .eof =>
              let others ← read .program
              return tree :: others
          | _ => unexpected .endOfStatement found

/-- The reader that is cut off where its calls are nested deeper than this. -/
def within (depth : Nat) {α : Type} (construct : Construct α) : Descent α :=
  match depth with
  | 0 => fun _ => none
  | depth + 1 => body (within depth) construct

/-- A depth of calls for reading these tokens. -/
def enough (ahead : List Token) : Nat := 10 * (ahead.length + 1)

def read {α : Type} (construct : Construct α) : Descent α :=
  fun ahead => within (enough ahead) construct ahead

section

variable {α β : Type} {reader : Descent α} {ahead : List Token}

/-- The reader ends, with a result or an error as described, and with these tokens ahead. -/
def Halts (reader : Descent α) (ahead : List Token) (returns : α → List Token → Prop)
    (fails : ParseError → List Token → Prop) : Prop :=
  (∃ result rest, reader ahead = some (.ok result, rest) ∧ returns result rest) ∨
    ∃ error rest, reader ahead = some (.error error, rest) ∧ fails error rest

variable {returns others : α → List Token → Prop} {gives : β → List Token → Prop}
  {fails refuses : ParseError → List Token → Prop}

theorem bind_apply (reader : Descent α) (next : α → Descent β) (ahead : List Token) :
    (reader >>= next) ahead = (reader ahead).bind fun
      | (.ok result, rest) => next result rest
      | (.error error, rest) => some (.error error, rest) := by
  change Option.bind (reader ahead) _ = _
  congr 1
  funext ⟨outcome, rest⟩
  cases outcome <;> rfl

theorem Halts.pure {result : α} (holds : returns result ahead) :
    Halts (Pure.pure result) ahead returns fails := .inl ⟨result, ahead, rfl, holds⟩

theorem Halts.throw {error : ParseError} (holds : fails error ahead) :
    Halts (throw error : Descent α) ahead returns fails := .inr ⟨error, ahead, rfl, holds⟩

/-- One reader after the other ends if the second does wherever the first has led to. -/
theorem Halts.bind {next : α → Descent β} (first : Halts reader ahead returns fails)
    (second : ∀ result rest, returns result rest → Halts (next result) rest gives refuses)
    (refused : ∀ error rest, fails error rest → refuses error rest) :
    Halts (reader >>= next) ahead gives refuses := by
  rcases first with ⟨result, rest, ended, holds⟩ | ⟨error, rest, ended, holds⟩
  · have continued : (reader >>= next) ahead = next result rest := by
      rw [bind_apply, ended]
      rfl
    rw [Halts, continued]
    exact second result rest holds
  · refine .inr ⟨error, rest, ?_, refused error rest holds⟩
    rw [bind_apply, ended]
    rfl

theorem Halts.imp (halts : Halts reader ahead returns fails)
    (returned : ∀ result rest, returns result rest → others result rest)
    (refused : ∀ error rest, fails error rest → refuses error rest) :
    Halts reader ahead others refuses := by
  rcases halts with ⟨result, rest, ended, holds⟩ | ⟨error, rest, ended, holds⟩
  · exact .inl ⟨result, rest, ended, returned result rest holds⟩
  · exact .inr ⟨error, rest, ended, refused error rest holds⟩

theorem Halts.map {function : α → β} (halts : Halts reader ahead
    (fun result => gives (function result)) fails) :
    Halts (function <$> reader) ahead gives fails := by
  rw [map_eq_pure_bind]
  exact halts.bind (fun _ _ holds => .pure holds) fun _ _ holds => holds

/-- A reader has one outcome, and what is known of it is known together. -/
theorem Halts.and (first : Halts reader ahead returns fails)
    (second : Halts reader ahead others refuses) :
    Halts reader ahead (fun result rest => returns result rest ∧ others result rest)
      (fun error rest => fails error rest ∧ refuses error rest) := by
  rcases first with ⟨result, rest, ended, holds⟩ | ⟨error, rest, ended, holds⟩
  · rcases second with ⟨_, _, again, also⟩ | ⟨_, _, again, _⟩
    · cases ended.symm.trans again
      exact .inl ⟨result, rest, ended, holds, also⟩
    · cases ended.symm.trans again
  · rcases second with ⟨_, _, again, _⟩ | ⟨_, _, again, also⟩
    · cases ended.symm.trans again
    · cases ended.symm.trans again
      exact .inr ⟨error, rest, ended, holds, also⟩

theorem Halts.current {next : Token → Descent β}
    (halts : Halts (next (upcoming ahead)) ahead gives refuses) :
    Halts (current >>= next) ahead gives refuses := halts

theorem Halts.following {next : Token → Descent β}
    (halts : Halts (next (upcoming ahead.tail)) ahead gives refuses) :
    Halts (following >>= next) ahead gives refuses := halts

theorem ahead_of_upcoming (more : (upcoming ahead).kind ≠ .eof) :
    ahead = upcoming ahead :: ahead.tail := by
  cases ahead with
  | nil => exact absurd rfl more
  | cons token rest => rfl

theorem advance_halts (more : (upcoming ahead).kind ≠ .eof) :
    Halts advance ahead (fun token rest => ahead = token :: rest) (fun _ _ => False) := by
  apply Halts.current
  rw [if_pos more]
  exact .inl ⟨_, _, rfl, ahead_of_upcoming more⟩

/-- A token of the kind comes next and is taken, or another one does and is left. -/
inductive Eats (kind : TokenKind) : List Token → Option Token → List Token → Prop where
  | found {token : Token} {rest : List Token} (same : token.kind = kind) :
      Eats kind (token :: rest) (some token) rest
  | missing {ahead : List Token} (other : (upcoming ahead).kind ≠ kind) : Eats kind ahead none ahead

theorem eat_halts {kind : TokenKind} (inside : kind ≠ .eof) :
    Halts (eat kind) ahead (Eats kind ahead) (fun _ _ => False) := by
  apply Halts.current
  split
  · next same =>
      apply Halts.map
      refine (advance_halts (same ▸ inside)).imp ?_ fun _ _ never => never
      rintro token rest rfl
      exact .found same
  · next other => exact .pure (.missing other)

/-- The reader takes the token that comes next if it is of the kind, and otherwise refuses it. -/
def TakesOne (reader : Descent Token) (kind : TokenKind) (refusal : Token → ParseError) : Prop :=
  ∀ ahead, Halts reader ahead (fun token rest => ahead = token :: rest ∧ token.kind = kind)
    (fun error rest =>
      rest = ahead ∧ (upcoming ahead).kind ≠ kind ∧ error = refusal (upcoming ahead))

theorem expect_takes {kind : TokenKind} (inside : kind ≠ .eof) :
    TakesOne (expect kind) kind
      (fun token => .unexpected (.token kind) token.kind token.location) := by
  intro ahead
  apply Halts.current
  split
  · next same =>
      refine (advance_halts (same ▸ inside)).imp ?_ fun _ _ never => never.elim
      rintro token rest rfl
      exact ⟨rfl, same⟩
  · next other => exact .throw ⟨rfl, other, rfl⟩

theorem name_takes : TakesOne name .ident
    (fun token => .unexpected (.production .identifier) token.kind token.location) := by
  intro ahead
  refine (eat_halts (by decide)).bind ?_ fun _ _ never => never.elim
  rintro token? rest (same | other)
  · exact .pure ⟨rfl, same⟩
  · exact Halts.current (.throw ⟨rfl, other, rfl⟩)

theorem closing_takes (opening : Token) : TakesOne (closing opening) .rightParen
    (fun token => .unclosedParen opening.span token.kind token.location) := by
  intro ahead
  refine (eat_halts (by decide)).bind ?_ fun _ _ never => never.elim
  rintro token? rest (same | other)
  · exact .pure ⟨rfl, same⟩
  · exact Halts.current (.throw ⟨rfl, other, rfl⟩)

/-- A number comes next and is taken. -/
def ReadsNumber (sign? : Option Token) (ahead : List Token) (tree : Tree) (rest : List Token) :
    Prop :=
  ∃ number production, ahead = number :: rest ∧ Reading.NumberLeaf number.kind production ∧
    tree = numberLeaf production number sign?

theorem number_halts (sign? : Option Token) : Halts (number sign?) ahead
    (ReadsNumber sign? ahead)
    (fun _ rest => rest = ahead ∧ (upcoming ahead).kind.isNumeric = false) := by
  have takes : ∀ production, Reading.NumberLeaf (upcoming ahead).kind production →
      Halts ((numberLeaf production · sign?) <$> advance) ahead (ReadsNumber sign? ahead)
        (fun _ rest => rest = ahead ∧ (upcoming ahead).kind.isNumeric = false) := by
    intro production leaf
    have more : (upcoming ahead).kind ≠ .eof := by
      intro stop
      rw [stop] at leaf
      cases leaf
    apply Halts.map
    refine (advance_halts more).imp ?_ fun _ _ never => never.elim
    rintro token rest rfl
    exact ⟨token, production, rfl, leaf, rfl⟩
  apply Halts.current
  split
  · next kind => exact takes _ (by rw [kind]; exact .int)
  · next kind => exact takes _ (by rw [kind]; exact .num)
  · next notInt notNum =>
      refine .throw ⟨rfl, ?_⟩
      generalize (upcoming ahead).kind = kind at notInt notNum
      cases kind with
      | int => exact absurd rfl notInt
      | num => exact absurd rfl notNum
      | _ => rfl

/-- What is left ahead of a literal, or where there is none. -/
theorem literal_halts : Halts literal ahead
    (fun tree rest => ReadsNumber none ahead tree rest ∨
      ∃ sign behind, ahead = sign :: behind ∧ sign.kind.isAdditive = true ∧
        ReadsNumber (some sign) behind tree rest)
    (fun _ rest => (rest = ahead ∧ (upcoming ahead).kind.isNumeric = false ∧
        (upcoming ahead).kind.isAdditive = false) ∨
      ∃ sign, ahead = sign :: rest ∧ sign.kind.isAdditive = true ∧
        (upcoming rest).kind.isNumeric = false) := by
  apply Halts.current
  split
  · next additive =>
      have more : (upcoming ahead).kind ≠ .eof := by
        intro stop
        rw [stop] at additive
        cases additive
      refine (advance_halts more).bind ?_ fun _ _ never => never.elim
      rintro sign behind rfl
      refine (number_halts (some sign)).imp ?_ ?_
      · exact fun tree rest read => .inr ⟨sign, behind, rfl, additive, read⟩
      · rintro error rest ⟨rfl, lacking⟩
        exact .inr ⟨sign, rfl, additive, lacking⟩
  · next unsigned =>
      refine (number_halts none).imp (fun tree rest read => .inl read) ?_
      rintro error rest ⟨rfl, lacking⟩
      exact .inl ⟨rfl, lacking, Bool.eq_false_iff.mpr unsigned⟩

end

end Descent

end Reckon
