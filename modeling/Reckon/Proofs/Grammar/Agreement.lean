import Reckon.Proofs.Grammar.Depth
import Reckon.Proofs.Grammar.Parallel
import Reckon.Proofs.Grammar.Yield

/-!
Descent and reading agree. While a reader of a construct takes its tokens, a reading goes from the
stage where the construct is due to the one where it is finished, or is refused for the same error.
What a reading does with the token behind a construct depends on what stands around that, and is
left open here: the reader of an expression agrees wherever the expression stands.
-/

namespace Reckon

/-- The last token is the end of input. -/
def EndsWithEof (tokens : List Token) : Prop :=
  ∃ body stop, tokens = body ++ [stop] ∧ stop.kind = .eof

namespace EndsWithEof

variable {ahead rest : List Token}

theorem behind (ends : EndsWithEof ahead) (passes : Descent.Passes ahead rest) :
    EndsWithEof rest := by
  obtain ⟨body, stop, whole, kind⟩ := ends
  obtain ⟨passed, rfl, inside⟩ := passes
  rcases List.eq_nil_or_concat rest with rfl | ⟨front, last, rfl⟩
  · rw [List.append_nil] at whole
    exact absurd kind (inside stop (by simp [whole]))
  · rw [List.concat_eq_append, ← List.append_assoc] at whole
    obtain ⟨_, same⟩ := List.append_inj' whole rfl
    cases same
    exact ⟨front, stop, List.concat_eq_append, kind⟩

theorem ne_nil (ends : EndsWithEof ahead) : ahead ≠ [] := by
  obtain ⟨body, stop, rfl, _⟩ := ends
  simp

theorem drop {position : Nat} (ends : EndsWithEof ahead) (within : position < ahead.length) :
    EndsWithEof (ahead.drop position) := by
  obtain ⟨body, stop, rfl, kind⟩ := ends
  rw [List.length_append, List.length_singleton] at within
  refine ⟨body.drop position, stop, ?_, kind⟩
  rw [List.drop_append_of_le_length (by omega)]

end EndsWithEof

namespace Reading

/-- A reading that does the given with the token that comes next, and then goes on. -/
def goOn (next : Token → Except ParseError Reading) (ahead : List Token) :
    Except ParseError Reading :=
  next (Descent.upcoming ahead) >>= (·.run ahead.tail)

/-- An operator of the chain makes its next operand due, and anything else ends the chain. -/
def afterOperand (level : Level) (due : List (Tree × Token) → Reading)
    (ended : Tree → Token → Except ParseError Reading) (earlier : List (Tree × Token)) (last : Tree)
    (token : Token) : Except ParseError Reading :=
  if level.joins token.kind then .ok (due ((last, token) :: earlier))
  else ended (finishChain level.production earlier last) token

section

variable (finished : List Tree) (head : Head) (openings : List Opening)

def afterExpr (value : Tree) (token : Token) : Except ParseError Reading :=
  closeExpr ⟨finished, .start⟩ head value token openings

def afterTerm : List (Tree × Token) → Tree → Token → Except ParseError Reading :=
  afterOperand .sum (fun terms => ⟨finished, .atomDue ⟨head, openings, ⟨terms, [], []⟩⟩⟩)
    (afterExpr finished head openings)

def afterFactor (terms : List (Tree × Token)) :
    List (Tree × Token) → Tree → Token → Except ParseError Reading :=
  afterOperand .product
    (fun factors => ⟨finished, .atomDue ⟨head, openings, ⟨terms, factors, []⟩⟩⟩)
    (afterTerm finished head openings terms)

/-- Unless an atom is raised it ends a factor. -/
theorem after_atom_eq (terms factors : List (Tree × Token)) (bases : List Tree) (atom : Tree)
    {token : Token} (other : token.kind ≠ .caret) :
    afterAtom ⟨finished, .start⟩ ⟨head, openings, ⟨terms, factors, bases⟩⟩ atom token =
      afterFactor finished head openings terms factors (raiseAll bases (.factorOf atom)) token := by
  unfold afterAtom
  split
  · next kind => exact absurd kind other
  · next kind =>
      rw [afterFactor, afterOperand, kind]
      rfl
  · next kind =>
      rw [afterFactor, afterOperand, kind]
      rfl
  · next kind =>
      rw [afterFactor, afterOperand, afterTerm, afterOperand, kind]
      rfl
  · next kind =>
      rw [afterFactor, afterOperand, afterTerm, afterOperand, kind]
      rfl
  · next noCaret noStar noSlash noPlus noMinus =>
      have noFactor : Level.product.joins token.kind = false := by
        generalize token.kind = kind at noStar noSlash
        cases kind <;> first | rfl | contradiction
      have noTerm : Level.sum.joins token.kind = false := by
        generalize token.kind = kind at noPlus noMinus
        cases kind <;> first | rfl | contradiction
      rw [afterFactor, afterOperand, noFactor, afterTerm, afterOperand, noTerm]
      rfl

end

end Reading

namespace Descent

open Reading (goOn afterOperand afterExpr afterTerm afterFactor)

section

variable {α β : Type} {ahead : List Token}

theorem shorter_of_cons {token : Token} {rest : List Token} (parted : ahead = token :: rest) :
    rest.length < ahead.length := by
  rw [parted]
  exact Nat.lt_succ_self _

theorem run_eq_go_on (ends : EndsWithEof ahead) (reading : Reading) :
    reading.run ahead = goOn reading.step ahead := by
  cases ahead with
  | nil => exact absurd rfl ends.ne_nil
  | cons token rest => exact Reading.run_cons reading token rest

theorem go_on_cons {next : Token → Except ParseError Reading} {token : Token} {rest : List Token}
    {reading : Reading}
    (taken : next token = .ok reading) : goOn next (token :: rest) = reading.run rest := by
  change next token >>= (·.run rest) = _
  rw [taken]
  rfl

theorem go_on_refused {next : Token → Except ParseError Reading} {error : ParseError}
    (refused : next (upcoming ahead) = .error error) : goOn next ahead = .error error := by
  rw [goOn, refused]
  rfl

theorem go_on_congr {next other : Token → Except ParseError Reading}
    (same : next (upcoming ahead) = other (upcoming ahead)) :
    goOn next ahead = goOn other ahead := by
  rw [goOn, same]
  rfl

/-- Where the reader fails the whole run fails alike, and where it has a result the run is the one
that goes on with it from there. -/
def Agrees (reader : Descent α) (ahead : List Token) (whole : Except ParseError Reading)
    (next : α → List Token → Except ParseError Reading) : Prop :=
  Halts reader ahead (fun result rest => whole = next result rest)
    (fun error _ => whole = .error error)

variable {reader : Descent α} {whole : Except ParseError Reading}
  {middle : α → List Token → Except ParseError Reading}
  {after : β → List Token → Except ParseError Reading} {next : α → Descent β}

theorem Agrees.bind {returns : α → List Token → Prop} (ends : EndsWithEof ahead)
    (goes : Goes reader ahead returns) (agrees : Agrees reader ahead whole middle)
    (second : ∀ result rest, EndsWithEof rest → returns result rest → Passes ahead rest →
      Agrees (next result) rest (middle result rest) after) :
    Agrees (reader >>= next) ahead whole after := by
  refine Halts.bind (Halts.and goes agrees) ?_ fun error rest known => known.2
  rintro result rest ⟨⟨passed, known⟩, rfl⟩
  exact second result rest (ends.behind passed) known passed

variable {step : Token → Except ParseError Reading}

/-- A token that the reader takes is taken by the reading, and one that it refuses is refused. -/
theorem TakesOne.agrees {reader : Descent Token} {kind : TokenKind} {refusal : Token → ParseError}
    {next : Token → Descent β} (takes : TakesOne reader kind refusal) (inside : kind ≠ .eof)
    (ends : EndsWithEof ahead) (reading : Token → Reading)
    (taken : ∀ token, token.kind = kind → step token = .ok (reading token))
    (refused : (upcoming ahead).kind ≠ kind →
      step (upcoming ahead) = .error (refusal (upcoming ahead)))
    (second : ∀ token rest, EndsWithEof rest → token.kind = kind → ahead = token :: rest →
      Agrees (next token) rest ((reading token).run rest) after) :
    Agrees (reader >>= next) ahead (goOn step ahead) after := by
  refine (takes ahead).bind ?_ ?_
  · rintro token rest ⟨rfl, same⟩
    rw [go_on_cons (taken token same)]
    exact second token rest (ends.behind (.one (same ▸ inside))) same rfl
  · rintro error rest ⟨rfl, other, rfl⟩
    exact go_on_refused (refused other)

/-- A name and the sign behind it are read as the reading reads them. -/
theorem signed_name_agrees {sign : TokenKind} {next : Token → Descent β} {due : Reading}
    (inside : sign ≠ .eof) (ends : EndsWithEof ahead) (named valueDue : Token → Reading)
    (taken : ∀ name, name.kind = .ident → due.step name = .ok (named name))
    (refused : (upcoming ahead).kind ≠ .ident → due.step (upcoming ahead) = .error
      (.unexpected (.production .identifier) (upcoming ahead).kind (upcoming ahead).location))
    (signed : ∀ name token, token.kind = sign → (named name).step token = .ok (valueDue name))
    (unsigned : ∀ name rest, ahead = name :: rest → (upcoming rest).kind ≠ sign →
      (named name).step (upcoming rest) = .error
        (.unexpected (.token sign) (upcoming rest).kind (upcoming rest).location))
    (second : ∀ name rest, EndsWithEof rest → rest.length < ahead.length →
      Agrees (next name) rest ((valueDue name).run rest) after) :
    Agrees (name >>= fun name => expect sign >>= fun _ => next name) ahead (due.run ahead)
      after := by
  rw [run_eq_go_on ends]
  apply name_takes.agrees (by decide) ends named taken refused
  intro name middle middleEnds _ parted
  rw [run_eq_go_on middleEnds]
  apply (expect_takes inside).agrees inside middleEnds (fun _ => valueDue name) (signed name)
    (unsigned name middle parted)
  intro token rest restEnds _ further
  exact second name rest restEnds (Nat.lt_trans (shorter_of_cons further) (shorter_of_cons parted))

theorem eat_agrees {kind : TokenKind} {next : Option Token → Descent β} (inside : kind ≠ .eof)
    (ends : EndsWithEof ahead) (reading : Token → Reading)
    (taken : ∀ token, token.kind = kind → step token = .ok (reading token))
    (found : ∀ token rest, EndsWithEof rest → token.kind = kind → ahead = token :: rest →
      Agrees (next (some token)) rest ((reading token).run rest) after)
    (missing : (upcoming ahead).kind ≠ kind → Agrees (next none) ahead (goOn step ahead) after) :
    Agrees (eat kind >>= next) ahead (goOn step ahead) after := by
  refine (eat_halts inside).bind ?_ fun _ _ never => never.elim
  rintro token? rest (same | other)
  · next token =>
      rw [go_on_cons (taken token same)]
      exact found token rest (ends.behind (.one (same ▸ inside))) same rfl
  · exact missing other

theorem advance_agrees {next : Token → Descent β} (ends : EndsWithEof ahead)
    (more : (upcoming ahead).kind ≠ .eof) (reading : Reading)
    (taken : step (upcoming ahead) = .ok reading)
    (second : ∀ rest, EndsWithEof rest → ahead = upcoming ahead :: rest →
      Agrees (next (upcoming ahead)) rest (reading.run rest) after) :
    Agrees (advance >>= next) ahead (goOn step ahead) after := by
  refine (advance_halts more).bind ?_ fun _ _ never => never.elim
  rintro token rest rfl
  have same : goOn step (token :: rest) = reading.run rest := go_on_cons taken
  rw [same]
  exact second rest (ends.behind (.one more)) rfl

end

theorem sign_of_additive {kind : TokenKind} (additive : kind.isAdditive = true) :
    kind = .plus ∨ kind = .minus := by
  cases kind with
  | plus => exact .inl rfl
  | minus => exact .inr rfl
  | _ => cases additive

theorem not_numeric_of_additive {kind : TokenKind} (additive : kind.isAdditive = true) :
    ¬kind.isNumeric = true := by
  rcases sign_of_additive additive with rfl | rfl <;> exact Bool.false_ne_true

/-- A list goes on behind an item with a comma, and otherwise ends. -/
def afterItem (due : List ListItem → Reading)
    (close : List ListItem → Token → Except ParseError Reading) (earlier : List ListItem)
    (item : Token × Tree) (token : Token) : Except ParseError Reading :=
  if token.kind = .comma then .ok (due (⟨item.1, item.2, some token⟩ :: earlier))
  else close (⟨item.1, item.2, none⟩ :: earlier) token

/-- A list without items takes nothing. -/
theorem series_empty (listing : Listing) {ahead : List Token} :
    Goes (read (.series listing)) ahead (fun items rest => items = [] → rest = ahead) := by
  rw [read_eq, body]
  apply Halts.current
  split
  · exact Halts.pure ⟨.refl ahead, fun _ => rfl⟩
  · apply Goes.bind (ends_read : Ends read (.item listing) ahead)
    intro item rest _ _
    apply Goes.bind (eat_moves (by decide))
    intro comma? behind _ _
    cases comma? with
    | none => exact Halts.pure ⟨.refl _, by simp⟩
    | some comma =>
        apply Goes.bind (ends_read : Ends read (.series listing) behind)
        exact fun others last _ _ => Halts.pure ⟨.refl _, by simp⟩

/-- The items of a list are read as the reading reads them, if each is. -/
theorem series_agrees (listing : Listing) (due : List ListItem → Reading)
    (close : List ListItem → Token → Except ParseError Reading)
    (closes : ∀ items token, token.kind = .rightParen → (due items).step token = close items token)
    {ahead : List Token} (ends : EndsWithEof ahead)
    (items : ∀ rest, rest.length ≤ ahead.length → EndsWithEof rest →
      (upcoming rest).kind ≠ .rightParen → ∀ earlier, Agrees (read (.item listing)) rest
        ((due earlier).run rest) (fun item => goOn (afterItem due close earlier item)))
    (earlier : List ListItem) : Agrees (read (.series listing)) ahead ((due earlier).run ahead)
      (fun items => goOn (close (items.reverse ++ earlier))) := by
  -- on the number of tokens ahead, of which every item passes some
  induction count : ahead.length using Nat.strongRecOn generalizing ahead earlier with
  | _ count induction =>
      subst count
      rw [read_eq, body]
      apply Halts.current
      split
      · next closed =>
          refine Halts.pure ?_
          rw [run_eq_go_on ends, goOn, closes _ _ closed]
          rfl
      · next inside =>
          refine Agrees.bind ends (ends_read.advances rfl)
            (items ahead (Nat.le_refl _) ends inside earlier) ?_
          rintro ⟨name, value⟩ rest restEnds fewer passed
          refine eat_agrees (by decide) restEnds
            (fun comma => due (⟨name, value, some comma⟩ :: earlier))
            (fun token comma => if_pos comma) ?_ ?_
          · intro comma behind behindEnds _ parted
            have below : behind.length < ahead.length :=
              Nat.lt_trans (shorter_of_cons parted) fewer
            refine Agrees.bind behindEnds ends_read.moves
              (induction behind.length below behindEnds
                (fun last shorter => items last (by omega)) _ rfl) ?_
            intro others last _ _ _
            refine Halts.pure ?_
            simp only [List.reverse_cons, List.append_assoc, List.singleton_append]
          · intro noComma
            refine Halts.pure ?_
            rw [goOn, afterItem, if_neg noComma]
            rfl

/-- Operators and operands behind an operand are read as the reading reads them, if each operand
is. -/
theorem chain_rest_agrees (level : Level) {due : List (Tree × Token) → Reading}
    {ended : Tree → Token → Except ParseError Reading} {ahead : List Token}
    (ends : EndsWithEof ahead)
    (operands : ∀ rest, rest.length < ahead.length → EndsWithEof rest → ∀ earlier,
      Agrees (read (.operand level)) rest ((due earlier).run rest)
        (fun last => goOn (afterOperand level due ended earlier last)))
    (earlier : List (Tree × Token)) (last : Tree) :
    Agrees (read (.chainRest level earlier last)) ahead
      (goOn (afterOperand level due ended earlier last) ahead) (fun tree => goOn (ended tree)) := by
  -- on the number of tokens ahead, of which every operator is one
  induction count : ahead.length using Nat.strongRecOn generalizing ahead earlier last with
  | _ count induction =>
      subst count
      rw [read_eq, body]
      apply Halts.current
      split
      · next joins =>
          apply advance_agrees ends (joins_inside joins) _ (if_pos joins)
          intro rest restEnds parted
          have less : rest.length < ahead.length := shorter_of_cons parted
          refine Agrees.bind restEnds (ends_read.advances rfl)
            (operands rest less restEnds _) ?_
          intro next behind behindEnds fewer _
          have below : behind.length < ahead.length := Nat.lt_trans fewer less
          exact induction behind.length below behindEnds
            (fun last shorter => operands last (Nat.lt_trans shorter below)) _ next rfl
      · next other =>
          refine Halts.pure ?_
          rw [goOn, afterOperand, if_neg other]
          rfl

theorem chain_agrees (level : Level) (due : List (Tree × Token) → Reading)
    (ended : Tree → Token → Except ParseError Reading) {ahead : List Token}
    (ends : EndsWithEof ahead)
    (first : Agrees (read (.operand level)) ahead ((due []).run ahead)
      (fun last => goOn (afterOperand level due ended [] last)))
    (operands : ∀ rest, rest.length < ahead.length → EndsWithEof rest → ∀ earlier,
      Agrees (read (.operand level)) rest ((due earlier).run rest)
        (fun last => goOn (afterOperand level due ended earlier last))) :
    Agrees (read (.chain level)) ahead ((due []).run ahead) (fun tree => goOn (ended tree)) := by
  rw [read_eq, body]
  refine Agrees.bind ends (ends_read.advances rfl) first fun last rest restEnds fewer _ => ?_
  exact chain_rest_agrees level restEnds
    (fun behind shorter => operands behind (Nat.lt_trans shorter fewer)) [] last

/-- A list that its closing parenthesis follows is the same tree for descent and reading. -/
theorem tree_before_closing (listing : Listing) {items : List ListItem} {start closing : Token}
    (same : items = [] → closing = start) :
    listing.tree items start =
      finishList listing.production listing.mark items.reverse closing := by
  cases items with
  | nil => rw [same rfl, Listing.tree]
  | cons item items =>
      simp only [Listing.tree, finishList]
      cases reversed : (item :: items).reverse with
      | nil => simp at reversed
      | cons last earlier => rfl

/-- Expressions and their parts are read as the reading reads them, wherever they stand. -/
structure Agreeing (ahead : List Token) : Prop where
  expr : ∀ finished head openings, Agrees (read (.chain .sum)) ahead
    (Reading.run ⟨finished, .atomDue ⟨head, openings, .empty⟩⟩ ahead)
    (fun value => goOn (afterExpr finished head openings value))
  term : ∀ finished head openings terms, Agrees (read (.chain .product)) ahead
    (Reading.run ⟨finished, .atomDue ⟨head, openings, ⟨terms, [], []⟩⟩⟩ ahead)
    (fun term => goOn (afterTerm finished head openings terms term))
  factor : ∀ finished head openings terms factors bases, Agrees (read .factor) ahead
    (Reading.run ⟨finished, .atomDue ⟨head, openings, ⟨terms, factors, bases⟩⟩⟩ ahead)
    (fun factor => goOn
      (afterFactor finished head openings terms factors (raiseAll bases factor)))
  arguments : ∀ finished inside (call : OpenCall), Agrees (read (.series .arguments)) ahead
    (Reading.run ⟨finished, .argumentDue inside call⟩ ahead)
    (fun items => goOn (Reading.closeCall ⟨finished, .start⟩ inside
      { call with arguments := items.reverse ++ call.arguments }))

def AgreeingBelow (ahead : List Token) : Prop :=
  ∀ rest : List Token, rest.length < ahead.length → EndsWithEof rest → Agreeing rest

section

variable {ahead : List Token} (below : AgreeingBelow ahead) (ends : EndsWithEof ahead)
  (finished : List Tree) (inside : Inside)

include below

theorem argument_agrees {rest : List Token} (few : rest.length ≤ ahead.length)
    (restEnds : EndsWithEof rest) (more : (upcoming rest).kind ≠ .rightParen) (call : OpenCall)
    (earlier : List ListItem) : Agrees (read (.item .arguments)) rest
      (Reading.run ⟨finished, .argumentDue inside { call with arguments := earlier }⟩ rest)
      (fun item => goOn (afterItem
        (fun items => ⟨finished, .argumentDue inside { call with arguments := items }⟩)
        (fun items => Reading.closeCall ⟨finished, .start⟩ inside { call with arguments := items })
        earlier item)) := by
  rw [read_eq, body]
  apply signed_name_agrees (by decide) restEnds
    (fun name => ⟨finished, .argumentNamed inside { call with arguments := earlier } name⟩)
    (fun name => ⟨finished, .atomDue (inside.enter
      (.argument { call with arguments := earlier } name))⟩)
  · intro name kind
    simp [Reading.step, kind, Reading.next]
  · intro other
    simp [Reading.step, Reading.refuse]
  · intro name token kind
    simp only [Listing.sign] at kind
    simp [Reading.step, kind, Reading.next]
  · intro name middle _ other
    simp only [Listing.sign] at other
    simp [Reading.step, Reading.refuse, Listing.sign]
  · intro name last lastEnds less
    rw [read_eq, body]
    apply Agrees.bind lastEnds (ends_read.advances rfl)
      ((below last (Nat.lt_of_lt_of_le less few) lastEnds).expr finished inside.head
        (.argument { call with arguments := earlier } name inside.chain :: inside.openings))
    exact fun value behind _ _ _ => Halts.pure rfl

include ends

theorem arguments_agree (call : OpenCall) : Agrees (read (.series .arguments)) ahead
    (Reading.run ⟨finished, .argumentDue inside call⟩ ahead)
    (fun items => goOn (Reading.closeCall ⟨finished, .start⟩ inside
      { call with arguments := items.reverse ++ call.arguments })) := by
  refine series_agrees .arguments
    (fun items => ⟨finished, .argumentDue inside { call with arguments := items }⟩)
    (fun items => Reading.closeCall ⟨finished, .start⟩ inside { call with arguments := items })
    ?_ ends ?_ call.arguments
  · intro items token kind
    simp only [Reading.step, kind]
    rfl
  · exact fun rest few restEnds more =>
      argument_agrees below finished inside few restEnds more call

/-- Behind the arguments of a call it ends, if with a parenthesis. -/
def afterArguments (callee opening : Token) (list : Tree) (token : Token) :
    Except ParseError Reading :=
  if token.kind = .rightParen then
    .ok ⟨finished, .atomRead inside (.atomOf (enclosed .call callee opening list token))⟩
  else .error (.unclosedParen opening.span token.kind token.location)

theorem argument_list_agrees (callee opening : Token) : Agrees (read .argumentList) ahead
    (Reading.run ⟨finished, .argumentDue inside ⟨callee, opening, []⟩⟩ ahead)
    (fun list => goOn (afterArguments finished inside callee opening list)) := by
  rw [read_eq, body]
  apply Halts.current
  refine Agrees.bind ends (series_empty .arguments)
    (arguments_agree below ends finished inside ⟨callee, opening, []⟩) ?_
  intro items rest restEnds empty _
  have names : OpenCall.repeated? ⟨callee, opening, items.reverse ++ []⟩ =
      firstRepeated [] (items.map (·.name)) := by
    rw [OpenCall.repeated?, List.append_nil, List.reverse_reverse]
  split
  · next again found =>
      apply Halts.throw
      apply go_on_refused
      rw [Reading.closeCall, names, found]
  · next distinct =>
      apply Halts.pure
      apply go_on_congr
      rw [Reading.closeCall, names, distinct, afterArguments,
        tree_before_closing .arguments fun none => congrArg upcoming (empty none)]
      simp only [List.append_nil]
      rfl

theorem call_agrees (named : (upcoming ahead).kind = .ident)
    (opens : (upcoming ahead.tail).kind = .leftParen) : Agrees (read .call) ahead
    (Reading.run ⟨finished, .atomDue inside⟩ ahead)
    (fun call => goOn (Reading.afterAtom ⟨finished, .start⟩ inside (.atomOf call))) := by
  rw [read_eq, body, run_eq_go_on ends]
  apply name_takes.agrees (by decide) ends fun name => ⟨finished, .nameRead inside name⟩
  · intro token kind
    simp [Reading.step, Reading.beginAtom, kind, Reading.next]
  · exact fun other => absurd named other
  · intro callee middle middleEnds _ parted
    rw [run_eq_go_on middleEnds]
    apply (expect_takes (by decide)).agrees (by decide) middleEnds
      fun opening => ⟨finished, .argumentDue inside ⟨callee, opening, []⟩⟩
    · intro token kind
      simp [Reading.step, Reading.afterName, kind, Reading.next]
    · intro other
      rw [parted] at opens
      exact absurd opens other
    · intro opening last lastEnds _ further
      have fewer := Nat.lt_trans (shorter_of_cons further) (shorter_of_cons parted)
      refine Agrees.bind lastEnds ends_read.moves
        (argument_list_agrees (fun rest less => below rest (Nat.lt_trans less fewer)) lastEnds
          finished inside callee opening) ?_
      intro list behind behindEnds _ _
      apply (closing_takes opening).agrees (by decide) behindEnds fun closed =>
        ⟨finished, .atomRead inside (.atomOf (enclosed .call callee opening list closed))⟩
      · exact fun token kind => if_pos kind
      · exact fun other => if_neg other
      · intro closed final finalEnds _ _
        apply Halts.pure
        rw [run_eq_go_on finalEnds]
        rfl

omit below in
/-- A number comes next, or a sign and directly behind it a number. -/
theorem literal_agrees (reads : (upcoming ahead).kind.isNumeric = true ∨
    (upcoming ahead).kind.isAdditive = true ∧ (upcoming ahead.tail).kind.isNumeric = true ∧
      (upcoming ahead).isAdjacent (upcoming ahead.tail) = true) : Agrees literal ahead
    (Reading.run ⟨finished, .atomDue inside⟩ ahead)
    (fun literal => goOn (Reading.afterAtom ⟨finished, .start⟩ inside (.atomOf literal))) := by
  rw [run_eq_go_on ends]
  refine (Halts.and literal_advances literal_halts).imp ?_ ?_
  · rintro tree rest ⟨⟨passed, _⟩, read⟩
    have restEnds := ends.behind passed
    rcases read with ⟨number, production, rfl, leaf, rfl⟩ |
      ⟨sign, behind, rfl, additive, number, production, rfl, leaf, rfl⟩
    · rw [go_on_cons (Reading.step_of_takes (.number (.due inside) leaf)), run_eq_go_on restEnds]
      rfl
    · rcases reads with numeric | ⟨_, _, adjacent⟩
      · exact absurd numeric (not_numeric_of_additive additive)
      · have directly : sign.isAdjacent number = true := adjacent
        rw [go_on_cons (Reading.step_of_takes (.sign (.due inside) (sign_of_additive additive))),
          Reading.run_cons, Reading.step_of_takes (.signedNumber directly leaf)]
        exact run_eq_go_on restEnds _
  · rintro error rest ⟨_, ⟨rfl, notNumeric, notAdditive⟩ | ⟨sign, rfl, additive, notNumeric⟩⟩
    · rcases reads with numeric | ⟨additive, _⟩
      · exact absurd numeric (by simp [notNumeric])
      · exact absurd additive (by simp [notAdditive])
    · rcases reads with numeric | ⟨_, numeric, _⟩
      · exact absurd numeric (not_numeric_of_additive additive)
      · exact absurd numeric (by simp [notNumeric])

omit below in
theorem sign_agrees (additive : (upcoming ahead).kind.isAdditive = true) : Agrees
    (if (upcoming ahead.tail).kind.isNumeric && (upcoming ahead).isAdjacent (upcoming ahead.tail)
      then Tree.atomOf <$> literal
      else throw (.detachedSign (upcoming ahead).kind (upcoming ahead).location)) ahead
    (Reading.run ⟨finished, .atomDue inside⟩ ahead)
    (fun atom => goOn (Reading.afterAtom ⟨finished, .start⟩ inside atom)) := by
  split
  · next joined =>
      apply Halts.map
      exact literal_agrees ends finished inside (.inr ⟨additive, Bool.and_eq_true_iff.mp joined⟩)
  · next detached =>
      apply Halts.throw
      obtain ⟨sign, rest, rfl⟩ := List.exists_cons_of_ne_nil ends.ne_nil
      replace additive : sign.kind.isAdditive = true := additive
      have restEnds := ends.behind (.one (additive_inside additive))
      rw [Reading.run_cons,
        Reading.step_of_takes (.sign (.due inside) (sign_of_additive additive))]
      change Reading.run _ rest = _
      rw [run_eq_go_on restEnds]
      apply go_on_refused
      change Reading.afterSign _ inside sign (upcoming rest) = _
      by_cases numeric : (upcoming rest).kind.isNumeric = true
      · have apart : ¬sign.isAdjacent (upcoming rest) = true := fun adjacent =>
          detached (Bool.and_eq_true_iff.mpr ⟨numeric, adjacent⟩)
        rw [Reading.afterSign, if_neg apart]
        rfl
      · exact Reading.after_sign_detached _ inside sign (Bool.eq_false_iff.mpr numeric)

omit below in
theorem identifier_agrees (named : (upcoming ahead).kind = .ident)
    (other : (upcoming ahead.tail).kind ≠ .leftParen) : Agrees identifier ahead
    (Reading.run ⟨finished, .atomDue inside⟩ ahead)
    (fun name => goOn (Reading.afterAtom ⟨finished, .start⟩ inside (.atomOf name))) := by
  apply Halts.map
  refine (name_takes ahead).imp ?_ ?_
  · rintro name rest ⟨rfl, kind⟩
    have restEnds := ends.behind (.one (by simp [kind]))
    rw [Reading.run_cons, Reading.step_of_takes (.atomName kind)]
    change Reading.run _ rest = _
    rw [run_eq_go_on restEnds]
    apply go_on_congr
    have noCall : (upcoming rest).kind ≠ .leftParen := other
    simp [Reading.step, Reading.afterName]
    rfl
  · rintro error rest ⟨_, unnamed, _⟩
    exact absurd named unnamed

theorem atom_agrees : Agrees (read .atom) ahead (Reading.run ⟨finished, .atomDue inside⟩ ahead)
    (fun atom => goOn (Reading.afterAtom ⟨finished, .start⟩ inside atom)) := by
  rw [read_eq, body]
  apply Halts.current
  split
  · next kind =>
      rw [run_eq_go_on ends]
      apply advance_agrees ends (by simp [kind])
        ⟨finished, .atomDue (inside.enter (.group (upcoming ahead)))⟩
      · simp [Reading.step, Reading.beginAtom, kind, Reading.next]
      · intro rest restEnds parted
        refine Agrees.bind restEnds (ends_read.advances rfl)
          ((below rest (shorter_of_cons parted) restEnds).expr finished inside.head
            (.group (upcoming ahead) inside.chain :: inside.openings)) ?_
        intro inner behind behindEnds _ _
        apply (closing_takes _).agrees (by decide) behindEnds
          fun closed => ⟨finished, .atomRead inside (.group (upcoming ahead) inner closed)⟩
        · exact fun token kind => if_pos kind
        · exact fun other => if_neg other
        · intro closed final finalEnds _ _
          apply Halts.pure
          rw [run_eq_go_on finalEnds]
          rfl
  · next named =>
      apply Halts.following
      split
      · next opens =>
          apply Halts.map
          exact call_agrees below ends finished inside named opens
      · next other =>
          rw [read_eq, body]
          apply Halts.map
          exact identifier_agrees ends finished inside named other
  · next kind =>
      rw [read_eq, body]
      apply Halts.map
      exact literal_agrees ends finished inside (.inl (by rw [kind]; rfl))
  · next kind =>
      rw [read_eq, body]
      apply Halts.map
      exact literal_agrees ends finished inside (.inl (by rw [kind]; rfl))
  · next kind =>
      rw [read_eq, body]
      exact sign_agrees ends finished inside (by rw [kind]; rfl)
  · next kind =>
      rw [read_eq, body]
      exact sign_agrees ends finished inside (by rw [kind]; rfl)
  · next noParen noName noInt noNum noPlus noMinus =>
      apply Halts.throw
      rw [run_eq_go_on ends]
      apply go_on_refused
      simp [Reading.step, Reading.beginAtom, Reading.refuse]

theorem factor_agrees (head : Head) (openings : List Opening) (terms factors : List (Tree × Token))
    (bases : List Tree) : Agrees (read .factor) ahead
      (Reading.run ⟨finished, .atomDue ⟨head, openings, ⟨terms, factors, bases⟩⟩⟩ ahead)
      (fun factor => goOn
        (afterFactor finished head openings terms factors (raiseAll bases factor))) := by
  rw [read_eq, body]
  refine Agrees.bind ends (ends_read.advances rfl) (atom_agrees below ends finished _) ?_
  intro base rest restEnds fewer _
  apply eat_agrees (by decide) restEnds
    fun _ => ⟨finished, .atomDue ⟨head, openings, ⟨terms, factors, base :: bases⟩⟩⟩
  · intro token kind
    simp [Reading.afterAtom, kind, Reading.next, Chain.raise]
  · intro caret behind behindEnds _ parted
    have less := Nat.lt_trans (shorter_of_cons parted) fewer
    apply Agrees.bind behindEnds (ends_read.advances rfl)
      ((below behind less behindEnds).factor finished head openings terms factors (base :: bases))
    exact fun exponent _ _ _ _ => Halts.pure rfl
  · intro noCaret
    apply Halts.pure
    apply go_on_congr
    exact Reading.after_atom_eq finished head openings terms factors bases base noCaret

theorem term_agrees (head : Head) (openings : List Opening) (terms : List (Tree × Token)) :
    Agrees (read (.chain .product)) ahead
      (Reading.run ⟨finished, .atomDue ⟨head, openings, ⟨terms, [], []⟩⟩⟩ ahead)
      (fun term => goOn (afterTerm finished head openings terms term)) := by
  apply chain_agrees .product
    (fun factors => ⟨finished, .atomDue ⟨head, openings, ⟨terms, factors, []⟩⟩⟩)
    (afterTerm finished head openings terms) ends
  · rw [read_eq, body]
    exact factor_agrees below ends finished head openings terms [] []
  · intro rest less restEnds factors
    rw [read_eq, body]
    exact (below rest less restEnds).factor finished head openings terms factors []

theorem expr_agrees (head : Head) (openings : List Opening) : Agrees (read (.chain .sum)) ahead
    (Reading.run ⟨finished, .atomDue ⟨head, openings, .empty⟩⟩ ahead)
    (fun value => goOn (afterExpr finished head openings value)) := by
  apply chain_agrees .sum (fun terms => ⟨finished, .atomDue ⟨head, openings, ⟨terms, [], []⟩⟩⟩)
    (afterExpr finished head openings) ends
  · rw [read_eq, body]
    exact term_agrees below ends finished head openings []
  · intro rest less restEnds terms
    rw [read_eq, body]
    exact (below rest less restEnds).term finished head openings terms

end

theorem agreeing {ahead : List Token} (ends : EndsWithEof ahead) : Agreeing ahead := by
  -- on the number of tokens ahead, as for the readers to end
  induction count : ahead.length using Nat.strongRecOn generalizing ahead with
  | _ count induction =>
      subst count
      have below : AgreeingBelow ahead :=
        fun rest fewer restEnds => induction rest.length fewer restEnds rfl
      exact {
        expr := expr_agrees below ends
        term := term_agrees below ends
        factor := factor_agrees below ends
        arguments := arguments_agree below ends }

end Descent

end Reckon
