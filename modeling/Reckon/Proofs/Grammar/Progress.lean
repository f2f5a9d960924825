import Reckon.Proofs.Grammar.Descent

/-!
Readers end. Before a reader calls another it passes a token, or goes down in the grammar, from
programs to statements, expressions, terms, factors and atoms. So what bounds the calls is the
number of tokens ahead, and among calls with the same tokens ahead the rank of the construct.
Wherever a reader ends, it has passed tokens from the front and never the end of input.
-/

namespace Reckon

namespace Descent

/-- Tokens from the front have been passed, the end of input not among them. -/
def Passes (ahead rest : List Token) : Prop :=
  ∃ passed, ahead = passed ++ rest ∧ ∀ token ∈ passed, token.kind ≠ .eof

section

variable {ahead middle rest : List Token} {token : Token}

theorem Passes.refl (ahead : List Token) : Passes ahead ahead := ⟨[], rfl, by simp⟩

theorem Passes.trans (first : Passes ahead middle) (second : Passes middle rest) :
    Passes ahead rest := by
  obtain ⟨passed, rfl, inside⟩ := first
  obtain ⟨more, rfl, moreInside⟩ := second
  refine ⟨passed ++ more, (List.append_assoc ..).symm, fun token member => ?_⟩
  rcases List.mem_append.mp member with member | member
  · exact inside token member
  · exact moreInside token member

theorem Passes.one (inside : token.kind ≠ .eof) : Passes (token :: rest) rest :=
  ⟨[token], rfl, by simpa using inside⟩

theorem Passes.suffix (passes : Passes ahead rest) : rest <:+ ahead := by
  obtain ⟨passed, whole, _⟩ := passes
  exact ⟨passed, whole.symm⟩

theorem Passes.length_le (passes : Passes ahead rest) : rest.length ≤ ahead.length :=
  passes.suffix.length_le

end

section

variable {α β : Type} {reader : Descent α} {ahead : List Token}

/-- The reader ends; it has passed tokens, and a result is as described. -/
def Goes (reader : Descent α) (ahead : List Token) (returns : α → List Token → Prop) : Prop :=
  Halts reader ahead (fun result rest => Passes ahead rest ∧ returns result rest)
    (fun _ rest => Passes ahead rest)

/-- The reader ends. -/
def Moves (reader : Descent α) (ahead : List Token) : Prop := Goes reader ahead fun _ _ => True

/-- The reader ends, and with a result only once it has passed a token. -/
def Advances (reader : Descent α) (ahead : List Token) : Prop :=
  Goes reader ahead fun _ rest => rest.length < ahead.length

theorem Moves.pure (result : α) : Moves (Pure.pure result) ahead :=
  Halts.pure ⟨.refl ahead, trivial⟩

theorem Moves.throw (error : ParseError) : Moves (throw error : Descent α) ahead :=
  Halts.throw (.refl ahead)

theorem Advances.throw (error : ParseError) : Advances (throw error : Descent α) ahead :=
  Halts.throw (.refl ahead)

theorem Goes.imp {returns others : α → List Token → Prop} (goes : Goes reader ahead returns)
    (weaker : ∀ result rest, Passes ahead rest → returns result rest → others result rest) :
    Goes reader ahead others :=
  Halts.imp goes (fun result rest reached => ⟨reached.1, weaker result rest reached.1 reached.2⟩)
    fun _ _ passed => passed

theorem Goes.known {returns : α → List Token → Prop} (goes : Goes reader ahead returns) :
    Goes reader ahead fun result rest =>
      reader ahead = some (.ok result, rest) ∧ returns result rest := by
  rcases goes with ⟨result, rest, ended, passed, holds⟩ | ⟨error, rest, ended, passed⟩
  · exact .inl ⟨result, rest, ended, passed, ended, holds⟩
  · exact .inr ⟨error, rest, ended, passed⟩

theorem Goes.and {returns others : α → List Token → Prop} (first : Goes reader ahead returns)
    (second : Goes reader ahead others) :
    Goes reader ahead fun result rest => returns result rest ∧ others result rest := by
  refine (Halts.and first second).imp ?_ fun _ _ passed => passed.1
  exact fun _ _ reached => ⟨reached.1.1, reached.1.2, reached.2.2⟩

theorem Goes.bind {returns : α → List Token → Prop} {gives : β → List Token → Prop}
    {next : α → Descent β} (first : Goes reader ahead returns)
    (second : ∀ result rest, Passes ahead rest → returns result rest →
      Goes (next result) rest gives) :
    Goes (reader >>= next) ahead gives := by
  refine Halts.bind first (fun result rest reached => ?_) fun _ _ passed => passed
  apply Halts.imp (second result rest reached.1 reached.2)
  · exact fun _ _ further => ⟨reached.1.trans further.1, further.2⟩
  · exact fun _ _ further => reached.1.trans further

theorem Advances.moves (advances : Advances reader ahead) : Moves reader ahead :=
  Goes.imp advances fun _ _ _ _ => trivial

theorem Moves.bind {next : α → Descent β} (first : Moves reader ahead)
    (second : ∀ result rest, Passes ahead rest → Moves (next result) rest) :
    Moves (reader >>= next) ahead :=
  Goes.bind first fun result rest passed _ => second result rest passed

theorem Advances.bind {next : α → Descent β} (first : Advances reader ahead)
    (second : ∀ result rest, rest.length < ahead.length → Moves (next result) rest) :
    Advances (reader >>= next) ahead := by
  apply Goes.bind first
  intro result rest _ fewer
  exact (second result rest fewer).imp fun _ _ further _ =>
    Nat.lt_of_le_of_lt further.length_le fewer

theorem Advances.map (function : α → β) (advances : Advances reader ahead) :
    Advances (function <$> reader) ahead := Halts.map advances

theorem TakesOne.advances {reader : Descent Token} {kind : TokenKind} {refusal : Token → ParseError}
    (takes : TakesOne reader kind refusal) (inside : kind ≠ .eof) : Advances reader ahead := by
  refine (takes ahead).imp ?_ ?_
  · rintro token rest ⟨rfl, same⟩
    exact ⟨.one (same ▸ inside), Nat.lt_succ_self _⟩
  · rintro error rest ⟨rfl, _⟩
    exact .refl _

theorem name_advances : Advances name ahead := name_takes.advances (by decide)

theorem expect_advances {kind : TokenKind} (inside : kind ≠ .eof) : Advances (expect kind) ahead :=
  (expect_takes inside).advances inside

theorem closing_advances (opening : Token) : Advances (closing opening) ahead :=
  (closing_takes opening).advances (by decide)

theorem identifier_advances : Advances identifier ahead := name_advances.map _

theorem advance_advances (more : (upcoming ahead).kind ≠ .eof) : Advances advance ahead := by
  refine (advance_halts more).imp ?_ fun _ _ never => never.elim
  rintro token rest rfl
  exact ⟨.one more, Nat.lt_succ_self _⟩

theorem advance_moves : Moves advance ahead := by
  by_cases stop : (upcoming ahead).kind = .eof
  · apply Halts.current
    rw [if_neg (not_not_intro stop)]
    exact Moves.pure _
  · exact (advance_advances stop).moves

theorem eat_goes {kind : TokenKind} (inside : kind ≠ .eof) :
    Goes (eat kind) ahead (Eats kind ahead) := by
  apply Halts.imp (eat_halts inside)
  · intro token? rest eats
    cases eats with
    | found same => exact ⟨.one (same ▸ inside), .found same⟩
    | missing other => exact ⟨.refl _, .missing other⟩
  · exact fun _ _ never => never.elim

theorem eat_moves {kind : TokenKind} (inside : kind ≠ .eof) : Moves (eat kind) ahead :=
  Goes.imp (eat_goes inside) fun _ _ _ _ => trivial

theorem ReadsNumber.passes {sign? : Option Token} {tree : Tree} {rest : List Token}
    (read : ReadsNumber sign? ahead tree rest) :
    Passes ahead rest ∧ rest.length < ahead.length := by
  obtain ⟨number, production, rfl, leaf, rfl⟩ := read
  refine ⟨.one fun stop => ?_, Nat.lt_succ_self _⟩
  rw [stop] at leaf
  cases leaf

theorem additive_inside {kind : TokenKind} (additive : kind.isAdditive = true) : kind ≠ .eof := by
  rintro rfl
  cases additive

theorem literal_advances : Advances literal ahead := by
  refine literal_halts.imp ?_ ?_
  · rintro tree rest (read | ⟨sign, behind, rfl, additive, read⟩)
    · exact read.passes
    · obtain ⟨passed, fewer⟩ := read.passes
      exact ⟨.trans (.one (additive_inside additive)) passed, Nat.lt_succ_of_lt fewer⟩
  · rintro error rest (⟨rfl, _⟩ | ⟨sign, rfl, additive, _⟩)
    · exact .refl _
    · exact .one (additive_inside additive)

end

theorem joins_inside {level : Level} {kind : TokenKind} (joins : level.joins kind = true) :
    kind ≠ .eof := by
  rintro rfl
  cases level <;> cases joins

namespace Construct

variable {α : Type}

/-- Its reader returns a result only once it has passed a token. -/
def consumes : Construct α → Bool
  | .chainRest .. | .argumentList | .series _ | .parameterList | .program => false
  | _ => true

/-- How high the construct stands above those it may begin with. -/
def rank : Construct α → Nat
  | .identifier | .literal | .call | .chainRest .. | .item _ | .signature => 1
  | .echo | .assignment | .definition => 1
  | .atom | .series _ => 2
  | .factor | .argumentList | .parameterList => 3
  | .operand .product => 4
  | .chain .product => 5
  | .operand .sum => 6
  | .chain .sum => 7
  | .itemValue _ | .headed _ | .statement => 8
  | .program => 9

/-- How deep the calls of the reader are at most. -/
def need (construct : Construct α) (ahead : List Token) : Nat :=
  10 * ahead.length + construct.rank

theorem rank_pos (construct : Construct α) : 0 < construct.rank := by
  cases construct with
  | chain level | operand level => cases level <;> decide
  | _ => exact Nat.succ_pos _

theorem need_le_enough (construct : Construct α) (ahead : List Token) :
    construct.need ahead ≤ enough ahead := by
  have low : construct.rank ≤ 10 := by
    cases construct with
    | chain level | operand level => cases level <;> decide
    | _ => simp [rank]
  rw [need, enough]
  omega

end Construct

section

variable {read : {β : Type} → Construct β → Descent β} {ahead : List Token}

/-- The reader of the construct ends. -/
def Ends (read : {β : Type} → Construct β → Descent β) {α : Type} (construct : Construct α)
    (ahead : List Token) : Prop :=
  Goes (read construct) ahead fun _ rest =>
    construct.consumes = true → rest.length < ahead.length

theorem Ends.advances {α : Type} {construct : Construct α} (ends : Ends read construct ahead)
    (consumes : construct.consumes = true) : Advances (read construct) ahead :=
  Goes.imp ends fun _ _ _ fewer => fewer consumes

theorem Ends.moves {α : Type} {construct : Construct α} (ends : Ends read construct ahead) :
    Moves (read construct) ahead :=
  Goes.imp ends fun _ _ _ _ => trivial

/-- All readers end wherever fewer tokens are ahead. -/
def EndsBelow (read : {β : Type} → Construct β → Descent β) (ahead : List Token) : Prop :=
  ∀ {β : Type} (construct : Construct β) (rest : List Token), rest.length < ahead.length →
    Ends read construct rest

variable (below : EndsBelow read ahead)

include below

theorem item_advances (listing : Listing) : Advances (body read (.item listing)) ahead := by
  rw [body]
  apply name_advances.bind
  intro name rest fewer
  apply (expect_advances (by cases listing <;> decide)).moves.bind
  intro sign middle passed
  have less := Nat.lt_of_le_of_lt passed.length_le fewer
  apply (below (.itemValue listing) middle less).moves.bind
  exact fun value _ _ => Moves.pure _

theorem series_moves (listing : Listing) (item : Advances (read (.item listing)) ahead) :
    Moves (body read (.series listing)) ahead := by
  rw [body]
  apply Halts.current
  split
  · exact Moves.pure _
  · refine Advances.moves (Advances.bind item fun item rest fewer => ?_)
    apply (eat_moves (by decide)).bind
    intro comma? behind passed
    cases comma? with
    | none => exact Moves.pure _
    | some comma =>
        have less := Nat.lt_of_le_of_lt passed.length_le fewer
        apply (below (.series listing) behind less).moves.bind
        exact fun others _ _ => Moves.pure _

omit below in
theorem argument_list_moves (series : Moves (read (.series .arguments)) ahead) :
    Moves (body read .argumentList) ahead := by
  rw [body]
  apply Halts.current
  apply series.bind
  intro items rest passed
  split
  · exact Moves.throw _
  · exact Moves.pure _

omit below in
theorem parameter_list_moves (series : Moves (read (.series .parameters)) ahead) :
    Moves (body read .parameterList) ahead := by
  rw [body]
  apply Halts.current
  apply series.bind
  exact fun items rest _ => Moves.pure _

/-- A name with a list in parentheses behind it. -/
theorem enclosed_advances (list : Construct Tree) (production : Production) :
    Advances (do
      let name ← name
      let opening ← expect .leftParen
      let list ← read list
      let closed ← closing opening
      return enclosed production name opening list closed) ahead := by
  apply name_advances.bind
  intro name rest fewer
  apply (expect_advances (by decide)).moves.bind
  intro opening middle passed
  apply (below list middle (Nat.lt_of_le_of_lt passed.length_le fewer)).moves.bind
  intro tree last further
  apply (closing_advances opening).moves.bind
  exact fun closed _ _ => Moves.pure _

theorem atom_advances (call : Advances (read .call) ahead)
    (identifier : Advances (read .identifier) ahead) (literal : Advances (read .literal) ahead) :
    Advances (body read .atom) ahead := by
  rw [body]
  apply Halts.current
  split
  · next kind =>
      apply (advance_advances (by simp [kind])).bind
      intro opening rest fewer
      apply (below (.chain .sum) rest fewer).moves.bind
      intro inner last passed
      apply (closing_advances opening).moves.bind
      exact fun closed _ _ => Moves.pure _
  · apply Halts.following
    split
    · exact call.map _
    · exact identifier.map _
  · exact literal.map _
  · exact literal.map _
  · apply Halts.following
    split
    · exact literal.map _
    · exact Advances.throw _
  · apply Halts.following
    split
    · exact literal.map _
    · exact Advances.throw _
  · exact Advances.throw _

theorem factor_advances (atom : Advances (read .atom) ahead) :
    Advances (body read .factor) ahead := by
  rw [body]
  apply atom.bind
  intro base rest fewer
  apply (eat_moves (by decide)).bind
  intro caret? behind passed
  cases caret? with
  | none => exact Moves.pure _
  | some caret =>
      apply (below .factor behind (Nat.lt_of_le_of_lt passed.length_le fewer)).moves.bind
      exact fun exponent _ _ => Moves.pure _

theorem chain_rest_moves (level : Level) (earlier : List (Tree × Token)) (last : Tree) :
    Moves (body read (.chainRest level earlier last)) ahead := by
  rw [body]
  apply Halts.current
  split
  · next joins =>
      refine Advances.moves (Advances.bind (advance_advances (joins_inside joins)) ?_)
      intro operator rest fewer
      apply (below (.operand level) rest fewer).moves.bind
      intro next behind passed
      exact (below _ behind (Nat.lt_of_le_of_lt passed.length_le fewer)).moves
  · exact Moves.pure _

theorem chain_advances {level : Level} (first : Advances (read (.operand level)) ahead) :
    Advances (body read (.chain level)) ahead := by
  rw [body]
  apply first.bind
  exact fun first rest fewer => (below (.chainRest level [] first) rest fewer).moves

theorem echo_advances : Advances (body read .echo) ahead := by
  rw [body]
  apply (expect_advances (by decide)).bind
  exact fun keyword rest fewer => (below _ rest fewer).moves

theorem assignment_advances : Advances (body read .assignment) ahead := by
  rw [body]
  apply name_advances.bind
  intro name rest fewer
  apply (expect_advances (by decide)).moves.bind
  exact fun sign middle passed =>
    (below _ middle (Nat.lt_of_le_of_lt passed.length_le fewer)).moves

theorem definition_advances : Advances (body read .definition) ahead := by
  rw [body]
  apply name_advances.bind
  intro name rest fewer
  apply (expect_advances (by decide)).moves.bind
  intro colon middle passed
  have less := Nat.lt_of_le_of_lt passed.length_le fewer
  -- the expression is read where still fewer tokens are ahead
  have headed : ∀ head {last : List Token}, Passes middle last →
      Moves (read (.headed head)) last := fun head last further =>
    (below _ last (Nat.lt_of_le_of_lt further.length_le less)).moves
  apply Halts.current
  apply Halts.following
  split
  · apply advance_moves.bind
    exact fun sign behind further => headed _ further
  · apply (below .signature middle less).moves.bind
    intro signature behind further
    apply (expect_advances (by decide)).moves.bind
    exact fun sign last beyond => headed _ (further.trans beyond)
  · apply name_advances.moves.bind
    intro kind behind further
    apply advance_moves.bind
    exact fun sign last beyond => headed _ (further.trans beyond)
  · exact Moves.throw _
  · exact Moves.throw _

omit below in
theorem statement_advances (echo : Advances (read .echo) ahead)
    (definition : Advances (read .definition) ahead)
    (assignment : Advances (read .assignment) ahead)
    (expr : Advances (read (.chain .sum)) ahead) : Advances (body read .statement) ahead := by
  rw [body]
  apply Halts.current
  apply Halts.following
  split
  · exact echo
  · exact definition
  · exact assignment
  · exact expr

theorem program_moves (statement : Advances (read .statement) ahead) :
    Moves (body read .program) ahead := by
  have others : ∀ {tree : Tree} {rest : List Token}, rest.length < ahead.length →
      Moves (read .program >>= fun others => pure (tree :: others)) rest := fun fewer =>
    (below .program _ fewer).moves.bind fun _ _ _ => Moves.pure _
  rw [body]
  apply Halts.current
  split
  · exact Moves.pure _
  · next kind =>
      refine Advances.moves (Advances.bind (advance_advances (by simp [kind])) ?_)
      exact fun newline rest fewer => others fewer
  · refine Advances.moves (Advances.bind statement fun tree rest fewer => ?_)
    apply Halts.current
    split
    · exact others fewer
    · exact others fewer
    · exact Moves.throw _

/-- A reader ends if all readers do where fewer tokens are ahead, and those of lower constructs with
the same tokens ahead. -/
theorem ends_body {α : Type} {construct : Construct α}
    (here : ∀ {β : Type} (lower : Construct β), lower.rank < construct.rank →
      Ends read lower ahead) : Ends (body read) construct ahead := by
  have advances : Advances (body read construct) ahead → Ends (body read) construct ahead :=
    fun advances => Goes.imp advances fun _ _ _ fewer _ => fewer
  have moves : Moves (body read construct) ahead → construct.consumes = false →
      Ends (body read) construct ahead := fun moves still =>
    Goes.imp moves fun _ _ _ _ consumes => absurd (still.symm.trans consumes) Bool.false_ne_true
  cases construct with
  | identifier =>
      apply advances
      rw [body]
      exact identifier_advances
  | literal =>
      apply advances
      rw [body]
      exact literal_advances
  | chain level =>
      have lower : (Construct.operand level).rank < (Construct.chain level).rank := by
        cases level <;> decide
      exact advances (chain_advances below ((here _ lower).advances rfl))
  | chainRest level earlier last => exact moves (chain_rest_moves below level earlier last) rfl
  | operand level =>
      apply advances
      cases level with
      | sum =>
          rw [body]
          exact (here (.chain .product) (by decide)).advances rfl
      | product =>
          rw [body]
          exact (here .factor (by decide)).advances rfl
  | factor => exact advances (factor_advances below ((here .atom (by decide)).advances rfl))
  | atom =>
      exact advances (atom_advances below ((here .call (by decide)).advances rfl)
        ((here .identifier (by decide)).advances rfl) ((here .literal (by decide)).advances rfl))
  | call =>
      apply advances
      rw [body]
      exact enclosed_advances below .argumentList .call
  | argumentList => exact moves (argument_list_moves (here (.series _) (by decide)).moves) rfl
  | series listing =>
      have item : Ends read (.item listing) ahead := here _ Nat.one_lt_two
      exact moves (series_moves below listing (item.advances rfl)) rfl
  | item listing => exact advances (item_advances below listing)
  | itemValue listing =>
      apply advances
      cases listing with
      | arguments =>
          rw [body]
          exact (here (.chain .sum) (by decide)).advances rfl
      | parameters =>
          rw [body]
          exact (here .identifier (by decide)).advances rfl
  | parameterList => exact moves (parameter_list_moves (here (.series _) (by decide)).moves) rfl
  | signature =>
      apply advances
      rw [body]
      exact enclosed_advances below .parameterList .signature
  | headed head =>
      apply advances
      rw [body]
      exact ((here (.chain .sum) (Nat.lt_succ_self 7)).advances rfl).map head.finish
  | echo => exact advances (echo_advances below)
  | assignment => exact advances (assignment_advances below)
  | definition => exact advances (definition_advances below)
  | statement =>
      exact advances (statement_advances ((here .echo (by decide)).advances rfl)
        ((here .definition (by decide)).advances rfl)
        ((here .assignment (by decide)).advances rfl)
        ((here (.chain .sum) (by decide)).advances rfl))
  | program =>
      exact moves (program_moves below ((here .statement (by decide)).advances rfl)) rfl

end

/-- No reader is cut off that may nest its calls as deeply as it needs to. -/
theorem ends_within {depth : Nat} {α : Type} {construct : Construct α} {ahead : List Token}
    (deep : construct.need ahead ≤ depth) : Ends (within depth) construct ahead := by
  -- every call needs less: fewer tokens are ahead, or its construct is of a lower rank
  induction depth generalizing α construct ahead with
  | zero =>
      have positive := construct.rank_pos
      rw [Construct.need] at deep
      omega
  | succ depth induction =>
      apply ends_body
      · intro β lower rest fewer
        apply induction
        have low := lower.need_le_enough rest
        rw [enough] at low
        rw [Construct.need] at deep
        have positive := construct.rank_pos
        omega
      · intro β lower less
        apply induction
        rw [Construct.need] at deep ⊢
        omega

end Descent

end Reckon
