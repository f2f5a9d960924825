import Reckon.Proofs.Grammar.Agreement

/-!
Programs read by descent. Statements, signatures and whole programs are read as a reading reads
them, and the readers of all of these end.
-/

namespace Reckon

namespace Descent

open Reading (goOn)

section

variable {ahead : List Token} (ends : EndsWithEof ahead) (finished : List Tree)

include ends

theorem headed_agrees (head : Head) : Agrees (read (.headed head)) ahead
    (Reading.run ⟨finished, .atomDue (.start head)⟩ ahead)
    (fun statement => goOn (Reading.lineEnd (statement :: finished))) := by
  rw [read_eq, body]
  exact Halts.map ((agreeing ends).expr finished head [])

theorem parameters_agree (signature : OpenSignature) : Agrees (read (.series .parameters)) ahead
    (Reading.run ⟨finished, .parameterDue signature⟩ ahead)
    (fun items => goOn (Reading.closeSignature ⟨finished, .start⟩
      { signature with parameters := items.reverse ++ signature.parameters })) := by
  apply series_agrees .parameters
    (fun items => ⟨finished, .parameterDue { signature with parameters := items }⟩)
    (fun items => Reading.closeSignature ⟨finished, .start⟩
      { signature with parameters := items }) ?_ ends ?_ signature.parameters
  · intro items token kind
    simp only [Reading.step, kind]
    rfl
  · intro rest _ restEnds more earlier
    rw [read_eq, body]
    apply signed_name_agrees (by decide) restEnds
      (fun name => ⟨finished, .parameterNamed { signature with parameters := earlier } name⟩)
      (fun name => ⟨finished, .parameterKindDue { signature with parameters := earlier } name⟩)
    · intro name kind
      simp [Reading.step, kind, Reading.next]
    · intro other
      simp [Reading.step, Reading.refuse]
    · intro name token kind
      simp only [Listing.sign] at kind
      simp [Reading.step, kind, Reading.next]
    · intro name middle _ other
      simp only [Listing.sign] at other
      simp [Reading.step, Reading.refuse, Listing.sign]
    · intro name last lastEnds _
      rw [read_eq, body, read_eq, body, identifier, run_eq_go_on lastEnds, bind_map_left]
      apply name_takes.agrees (by decide) lastEnds fun kind =>
        ⟨finished, .parameterRead { signature with parameters := earlier } name kind⟩
      · intro token kind
        simp [Reading.step, kind, Reading.next]
      · intro other
        simp [Reading.step, Reading.refuse]
      · intro kind behind behindEnds _ _
        apply Halts.pure
        rw [run_eq_go_on behindEnds]
        apply go_on_congr
        simp only [Reading.step, afterItem]
        split
        · next comma => rw [if_pos comma]; rfl
        · next other => rw [if_neg other]; rfl

/-- Behind the parameters of a signature it ends, if with a parenthesis. -/
def afterParameters (name kind opening : Token) (list : Tree) (token : Token) :
    Except ParseError Reading :=
  if token.kind = .rightParen then
    .ok ⟨finished, .signatureRead name (enclosed .signature kind opening list token)⟩
  else .error (.unclosedParen opening.span token.kind token.location)

theorem parameter_list_agrees (name kind opening : Token) : Agrees (read .parameterList) ahead
    (Reading.run ⟨finished, .parameterDue ⟨name, kind, opening, []⟩⟩ ahead)
    (fun list => goOn (afterParameters finished name kind opening list)) := by
  rw [read_eq, body]
  apply Halts.current
  refine Agrees.bind ends (series_empty .parameters)
    (parameters_agree ends finished ⟨name, kind, opening, []⟩) ?_
  intro items rest restEnds empty _
  apply Halts.pure
  apply go_on_congr
  rw [Reading.closeSignature, afterParameters,
    tree_before_closing .parameters fun none => congrArg upcoming (empty none)]
  simp only [List.append_nil]
  rfl

theorem signature_agrees (name : Token) (named : (upcoming ahead).kind = .ident)
    (opens : (upcoming ahead.tail).kind = .leftParen) : Agrees (read .signature) ahead
    (Reading.run ⟨finished, .definition name⟩ ahead)
    (fun signature => Reading.run ⟨finished, .signatureRead name signature⟩) := by
  rw [read_eq, body, run_eq_go_on ends]
  apply name_takes.agrees (by decide) ends fun kind => ⟨finished, .kindRead name kind⟩
  · intro token kind
    simp [Reading.step, kind, Reading.next]
  · exact fun other => absurd named other
  · intro kind middle middleEnds _ parted
    rw [run_eq_go_on middleEnds]
    apply (expect_takes (by decide)).agrees (by decide) middleEnds
      fun opening => ⟨finished, .parameterDue ⟨name, kind, opening, []⟩⟩
    · intro token kind
      simp [Reading.step, kind, Reading.next]
    · intro other
      rw [parted] at opens
      exact absurd opens other
    · intro opening last lastEnds _ _
      refine Agrees.bind lastEnds ends_read.moves
        (parameter_list_agrees lastEnds finished name kind opening) ?_
      intro list behind behindEnds _ _
      apply (closing_takes opening).agrees (by decide) behindEnds fun closed =>
        ⟨finished, .signatureRead name (enclosed .signature kind opening list closed)⟩
      · exact fun token kind => if_pos kind
      · exact fun other => if_neg other
      · exact fun closed final _ _ _ => Halts.pure rfl

theorem echo_agrees (keyword : (upcoming ahead).kind = .echo) : Agrees (read .echo) ahead
    (Reading.run ⟨finished, .start⟩ ahead)
    (fun statement => goOn (Reading.lineEnd (statement :: finished))) := by
  rw [read_eq, body, run_eq_go_on ends]
  apply (expect_takes (by decide)).agrees (by decide) ends
    fun keyword => ⟨finished, .atomDue (.start (.echo keyword))⟩
  · intro token kind
    simp [Reading.step, Reading.beginStatement, kind, Reading.next]
  · exact fun other => absurd keyword other
  · exact fun keyword rest restEnds _ _ => headed_agrees restEnds finished (.echo keyword)

/-- A statement that begins with a name and the given sign. -/
theorem named_agrees {sign : TokenKind} (inside : sign ≠ .eof) {reader : Token → Descent Tree}
    (stage : Token → Stage) (named : (upcoming ahead).kind = .ident)
    (signed : (upcoming ahead.tail).kind = sign)
    (begins : ∀ name token, token.kind = sign →
      Reading.step ⟨finished, .named name⟩ token = .ok ⟨finished, stage name⟩)
    (goesOn : ∀ name rest, EndsWithEof rest → Agrees (reader name) rest
      (Reading.run ⟨finished, stage name⟩ rest)
      (fun statement => goOn (Reading.lineEnd (statement :: finished)))) :
    Agrees (name >>= fun name => expect sign >>= fun _ => reader name) ahead
      (Reading.run ⟨finished, .start⟩ ahead)
      (fun statement => goOn (Reading.lineEnd (statement :: finished))) := by
  apply signed_name_agrees inside ends (fun name => ⟨finished, .named name⟩)
    (fun name => ⟨finished, stage name⟩)
  · intro name kind
    simp [Reading.step, Reading.beginStatement, kind, Reading.next]
  · exact fun other => absurd named other
  · exact begins
  · intro name rest parted other
    rw [parted] at signed
    exact absurd signed other
  · exact fun name rest restEnds _ => goesOn name rest restEnds

theorem assignment_agrees (named : (upcoming ahead).kind = .ident)
    (signed : (upcoming ahead.tail).kind = .equals) : Agrees (read .assignment) ahead
    (Reading.run ⟨finished, .start⟩ ahead)
    (fun statement => goOn (Reading.lineEnd (statement :: finished))) := by
  rw [read_eq, body]
  apply named_agrees ends finished (by decide) (fun name => .atomDue (.start (.assign name))) named
    signed
  · intro name token kind
    simp [Reading.step, kind, Reading.next]
  · exact fun name rest restEnds => headed_agrees restEnds finished (.assign name)

theorem definition_agrees (named : (upcoming ahead).kind = .ident)
    (signed : (upcoming ahead.tail).kind = .colon) : Agrees (read .definition) ahead
    (Reading.run ⟨finished, .start⟩ ahead)
    (fun statement => goOn (Reading.lineEnd (statement :: finished))) := by
  rw [read_eq, body]
  apply named_agrees ends finished (by decide) .definition named signed
  · intro name token kind
    simp [Reading.step, kind, Reading.next]
  · intro name rest restEnds
    apply Halts.current
    apply Halts.following
    split
    · next kind =>
        rw [run_eq_go_on restEnds]
        apply advance_agrees restEnds (by simp [kind])
          ⟨finished, .atomDue (.start (.define name none))⟩
        · simp [Reading.step, kind, Reading.next]
        · exact fun behind behindEnds _ => headed_agrees behindEnds finished (.define name none)
    · next kind opens =>
        refine Agrees.bind restEnds ends_read.moves
          (signature_agrees restEnds finished name kind opens) ?_
        intro signature middle middleEnds _ _
        rw [run_eq_go_on middleEnds]
        apply (expect_takes (by decide)).agrees (by decide) middleEnds
          fun _ => ⟨finished, .atomDue (.start (.callable name signature))⟩
        · intro token kind
          simp [Reading.step, kind, Reading.next]
        · intro other
          simp [Reading.step, Reading.refuse]
        · exact fun sign last lastEnds _ _ =>
            headed_agrees lastEnds finished (.callable name signature)
    · next kind equals =>
        rw [run_eq_go_on restEnds]
        apply name_takes.agrees (by decide) restEnds fun kind => ⟨finished, .kindRead name kind⟩
        · intro token kind
          simp [Reading.step, kind, Reading.next]
        · exact fun other => absurd kind other
        · intro kind middle middleEnds _ parted
          replace equals : (upcoming middle).kind = .equals := by
            rwa [parted] at equals
          rw [run_eq_go_on middleEnds]
          apply advance_agrees middleEnds (by simp [equals])
            ⟨finished, .atomDue (.start (.define name (some kind)))⟩
          · simp [Reading.step, equals, Reading.next]
          · exact fun last lastEnds _ =>
              headed_agrees lastEnds finished (.define name (some kind))
    · next kind noParen noEquals =>
        apply Halts.throw
        obtain ⟨kindName, behind, rfl⟩ := List.exists_cons_of_ne_nil restEnds.ne_nil
        replace kind : kindName.kind = .ident := kind
        have behindEnds := restEnds.behind (.one (by simp [kind]))
        rw [Reading.run_cons, Reading.step_of_takes (.declared kind)]
        change Reading.run _ behind = _
        rw [run_eq_go_on behindEnds]
        apply go_on_refused
        simp only [List.tail_cons] at noParen noEquals
        simp [Reading.step, Reading.refuse]
    · next noEquals noName =>
        apply Halts.throw
        rw [run_eq_go_on restEnds]
        apply go_on_refused
        simp [Reading.step, Reading.refuse]

/-- Where no other statement begins, a statement is an expression. -/
theorem run_bare (noNewline : (upcoming ahead).kind ≠ .newline)
    (noStop : (upcoming ahead).kind ≠ .eof) (noEcho : (upcoming ahead).kind ≠ .echo)
    (noName : (upcoming ahead).kind = .ident →
      (upcoming ahead.tail).kind ≠ .colon ∧ (upcoming ahead.tail).kind ≠ .equals) :
    Reading.run ⟨finished, .start⟩ ahead =
      Reading.run ⟨finished, .atomDue (.start .bare)⟩ ahead := by
  by_cases named : (upcoming ahead).kind = .ident
  · obtain ⟨name, rest, rfl⟩ := List.exists_cons_of_ne_nil ends.ne_nil
    replace named : name.kind = .ident := named
    obtain ⟨noColon, noEquals⟩ := noName named
    have restEnds := ends.behind (.one (by simp [named]))
    rw [Reading.run_cons, Reading.run_cons, Reading.step_of_takes (.name named),
      Reading.step_of_takes (.atomName named)]
    change Reading.run _ rest = Reading.run _ rest
    rw [run_eq_go_on restEnds, run_eq_go_on restEnds]
    apply go_on_congr
    simp only [List.tail_cons] at noColon noEquals
    simp [Reading.step]
    rfl
  · rw [run_eq_go_on ends, run_eq_go_on ends]
    apply go_on_congr
    exact Reading.step_begin_atom .bare (by simp [noNewline, noStop, noEcho, named])

theorem statement_agrees (noNewline : (upcoming ahead).kind ≠ .newline)
    (noStop : (upcoming ahead).kind ≠ .eof) : Agrees (read .statement) ahead
    (Reading.run ⟨finished, .start⟩ ahead)
    (fun statement => goOn (Reading.lineEnd (statement :: finished))) := by
  rw [read_eq, body]
  apply Halts.current
  apply Halts.following
  split
  · next keyword => exact echo_agrees ends finished keyword
  · next named signed => exact definition_agrees ends finished named signed
  · next named signed => exact assignment_agrees ends finished named signed
  · next noEcho noColon noEquals =>
      rw [run_bare ends finished noNewline noStop noEcho
        fun named => ⟨noColon named, noEquals named⟩]
      exact (agreeing ends).expr finished .bare []

/-- Where a line ends the next one begins. -/
theorem go_on_line_end (line : (upcoming ahead).kind = .newline ∨ (upcoming ahead).kind = .eof) :
    goOn (Reading.lineEnd finished) ahead = Reading.run ⟨finished, .start⟩ ahead := by
  rw [run_eq_go_on ends]
  apply go_on_congr
  rcases line with kind | kind <;> simp [Reading.step, Reading.beginStatement, kind]

end

/-- The end of input is the last token and no other. -/
def EndsOnceWithEof (tokens : List Token) : Prop :=
  EndsWithEof tokens ∧ ∀ token ∈ tokens.dropLast, token.kind ≠ .eof

theorem EndsOnceWithEof.behind {ahead rest : List Token} (once : EndsOnceWithEof ahead)
    (passes : Passes ahead rest) : EndsOnceWithEof rest := by
  have ends := once.1.behind passes
  obtain ⟨passed, rfl, _⟩ := passes
  refine ⟨ends, fun token member => once.2 token ?_⟩
  rw [List.dropLast_append_of_ne_nil ends.ne_nil]
  exact List.mem_append_right _ member

/-- At the end of input nothing else is ahead. -/
theorem EndsOnceWithEof.at_end {ahead : List Token} (once : EndsOnceWithEof ahead)
    (stop : (upcoming ahead).kind = .eof) : ahead = [upcoming ahead] := by
  obtain ⟨token, rest, rfl⟩ := List.exists_cons_of_ne_nil once.1.ne_nil
  cases rest with
  | nil => rfl
  | cons next rest => exact absurd stop (once.2 token (by simp))

theorem program_agrees {ahead : List Token} (once : EndsOnceWithEof ahead) (finished : List Tree) :
    Agrees (read .program) ahead (Reading.run ⟨finished, .start⟩ ahead)
      (fun trees _ => .ok ⟨trees.reverse ++ finished, .start⟩) := by
  -- on the number of tokens ahead; what has been read of the program stands in `finished`
  induction count : ahead.length using Nat.strongRecOn generalizing ahead finished with
  | _ count induction =>
      subst count
      rw [read_eq, body]
      apply Halts.current
      have consed : ∀ (tree : Tree) {rest : List Token}, EndsOnceWithEof rest →
          rest.length < ahead.length →
          Agrees (read .program >>= fun others => pure (tree :: others)) rest
            (Reading.run ⟨tree :: finished, .start⟩ rest)
            (fun trees _ => .ok ⟨trees.reverse ++ finished, .start⟩) := by
        intro tree rest restOnce fewer
        refine Agrees.bind restOnce.1 ends_read.moves
          (induction rest.length fewer restOnce (tree :: finished) rfl) ?_
        intro others last _ _ _
        apply Halts.pure
        simp
      split
      · next stop =>
          apply Halts.pure
          rw [once.at_end stop, Reading.run_cons, Reading.step_of_takes (.stop stop)]
          rfl
      · next kind =>
          rw [run_eq_go_on once.1]
          apply advance_agrees once.1 (by simp [kind])
            ⟨.ofToken .newline (upcoming ahead) :: finished, .start⟩
          · exact Reading.step_of_takes (.newline kind)
          · intro rest restEnds parted
            refine consed _ (once.behind ?_) (shorter_of_cons parted)
            rw [parted]
            exact .one (by simp [kind])
      · next noStop noNewline =>
          refine Agrees.bind once.1 (ends_read.advances rfl)
            (statement_agrees once.1 finished noNewline noStop) ?_
          intro tree rest restEnds fewer passed
          have others := consed tree (once.behind passed) fewer
          apply Halts.current
          split
          · next newline => rwa [go_on_line_end restEnds _ (.inl newline)]
          · next stop => rwa [go_on_line_end restEnds _ (.inr stop)]
          · next noNewline noStop =>
              apply Halts.throw
              apply go_on_refused
              simp [Reading.lineEnd, Reading.refuse]

theorem program_eq_parse_tokens {tokens : List Token} (once : EndsOnceWithEof tokens) :
    ∃ rest, read .program tokens = some (parseTokens tokens, rest) := by
  have parsed : parseTokens tokens =
      (Reading.run ⟨[], .start⟩ tokens).map (·.finished.reverse) := rfl
  rcases program_agrees once [] with ⟨trees, rest, ended, same⟩ | ⟨error, rest, ended, same⟩
  · rw [ended, parsed, same]
    exact ⟨rest, by simp [Except.map]⟩
  · rw [ended, parsed, same]
    exact ⟨rest, rfl⟩

/-- From a position among the tokens the reader ends at one that is not before it, however deeply it
may nest its calls beyond what it needs. The tokens between the two are passed, and none of them is
the end of input. -/
structure EndsAt {α : Type} (construct : Construct α) (tokens : List Token) (position : Nat)
    (outcome : Except ParseError α) (next : Nat) : Prop where
  ends : ∀ depth, construct.need (tokens.drop position) ≤ depth →
    within depth construct (tokens.drop position) = some (outcome, tokens.drop next)
  forward : position ≤ next
  inside : next < tokens.length
  passed : ∀ token ∈ (tokens.take next).drop position, token.kind ≠ .eof

/-- The list in the parentheses of a call or of a signature. -/
def Construct.list : Listing → Construct Tree
  | .arguments => .argumentList
  | .parameters => .parameterList

section

variable {α : Type} {tokens : List Token} {position : Nat}

theorem ends_at (ends : EndsWithEof tokens) (within : position < tokens.length)
    (construct : Construct α) : ∃ outcome next, EndsAt construct tokens position outcome next ∧
      (construct.consumes = true → outcome.isOk = true → position < next) := by
  have reaches : ∀ {outcome rest}, read construct (tokens.drop position) = some (outcome, rest) →
      Passes (tokens.drop position) rest → ∃ next, rest = tokens.drop next ∧
        EndsAt construct tokens position outcome next := by
    intro outcome rest ended passes
    have more := ((ends.drop within).behind passes).ne_nil
    obtain ⟨passed, whole, inside⟩ := passes
    have left : rest = tokens.drop (position + passed.length) := by
      rw [← List.drop_drop, whole, List.drop_left]
    refine ⟨position + passed.length, left, ?_, Nat.le_add_right .., ?_, ?_⟩
    · intro depth deep
      rw [within_eq_read deep, ended, left]
    · rw [left] at more
      exact Nat.lt_of_not_le fun beyond => more (List.drop_eq_nil_of_le beyond)
    · rw [List.drop_take, Nat.add_sub_cancel_left, whole, List.take_left]
      exact inside
  have reading : Ends read construct (tokens.drop position) := ends_read
  rcases reading with ⟨result, rest, ended, passes, fewer⟩ | ⟨error, rest, ended, passes⟩
  · obtain ⟨next, rfl, endsAt⟩ := reaches ended passes
    refine ⟨.ok result, next, endsAt, fun consumes _ => ?_⟩
    have less := fewer consumes
    rw [List.length_drop, List.length_drop] at less
    omega
  · obtain ⟨next, rfl, endsAt⟩ := reaches ended passes
    refine ⟨.error error, next, endsAt, ?_⟩
    intro _ succeeded
    cases succeeded

/-- Before a closing parenthesis a list is empty. -/
theorem list_of_nothing (listing : Listing) {ahead : List Token}
    (closed : (upcoming ahead).kind = .rightParen) :
    read (.list listing) ahead = some (.ok (listing.tree [] (upcoming ahead)), ahead) := by
  have empty : read (.series listing) ahead = some (.ok [], ahead) := by
    rw [read_eq, body]
    change (if (upcoming ahead).kind = .rightParen then _ else _ : Descent _) ahead = _
    rw [if_pos closed]
    rfl
  cases listing with
  | arguments =>
      rw [Construct.list, read_eq, body]
      change (read (.series .arguments) >>= _) ahead = _
      rw [bind_apply, empty]
      rfl
  | parameters =>
      rw [Construct.list, read_eq, body]
      change (read (.series .parameters) >>= _) ahead = _
      rw [bind_apply, empty]
      rfl

theorem list_stays (ends : EndsWithEof tokens) (within : position < tokens.length)
    (listing : Listing) (closed : (upcoming (tokens.drop position)).kind = .rightParen) :
    ∃ tree, EndsAt (.list listing) tokens position (.ok tree) position := by
  obtain ⟨outcome, next, endsAt, _⟩ := ends_at ends within (.list listing)
  have ended := endsAt.ends _ (Nat.le_refl _)
  rw [within_eq_read (Nat.le_refl _), list_of_nothing listing closed] at ended
  obtain ⟨rfl, still⟩ := Prod.mk.inj (Option.some.inj ended)
  have same := congrArg List.length still
  rw [List.length_drop, List.length_drop] at same
  have bound := endsAt.inside
  obtain rfl : position = next := by omega
  exact ⟨_, endsAt⟩

end

/-- From wherever it is called, whatever the tokens, a reader ends without going back and without
passing the end of input, and has passed a token if it returns a tree, unless that is of a list: an
empty list is read from none. Programs are read by descent as they are read by a reading. -/
theorem readers_always_make_progress {tokens : List Token} (ends : EndsWithEof tokens) :
    (∀ {α : Type} (construct : Construct α) (position : Nat), position < tokens.length →
      ∃ outcome next, EndsAt construct tokens position outcome next ∧
        (construct.consumes = true → outcome.isOk = true → position < next)) ∧
    (∀ (listing : Listing) (position : Nat), position < tokens.length →
      (upcoming (tokens.drop position)).kind = .rightParen →
      ∃ tree, EndsAt (.list listing) tokens position (.ok tree) position) ∧
    ((∀ token ∈ tokens.dropLast, token.kind ≠ .eof) →
      ∃ rest, read .program tokens = some (parseTokens tokens, rest)) :=
  ⟨fun construct _ within => ends_at ends within construct,
    fun listing _ within => list_stays ends within listing,
    fun inside => program_eq_parse_tokens ⟨ends, inside⟩⟩

/-- A call whose argument opens a parenthesis, where the text ends. -/
def openCall : List Token :=
  [(.ident, "f"), (.leftParen, "("), (.ident, "a"), (.equals, "="), (.leftParen, "("), (.int, "1"),
    (.eof, "")].map fun (kind, text) => ⟨kind, text, .unknown⟩

/-- It is refused for the inner parenthesis, and so the descent into it ends. -/
theorem open_call_makes_progress :
    EndsWithEof openCall ∧ (∀ token ∈ openCall.dropLast, token.kind ≠ .eof) ∧
      (∀ {α : Type} (construct : Construct α) (position : Nat), position < openCall.length →
        ∃ outcome next, EndsAt construct openCall position outcome next ∧
          (construct.consumes = true → outcome.isOk = true → position < next)) ∧
      parseTokens openCall = .error (.unclosedParen Location.unknown.span .eof .unknown) ∧
      ∃ rest, read .program openCall = some (parseTokens openCall, rest) := by
  have ends : EndsWithEof openCall := ⟨openCall.dropLast, ⟨.eof, "", .unknown⟩, rfl, rfl⟩
  have inside : ∀ token ∈ openCall.dropLast, token.kind ≠ .eof := by decide
  obtain ⟨progress, _, agrees⟩ := readers_always_make_progress ends
  exact ⟨ends, inside, progress, rfl, agrees inside⟩

end Descent

end Reckon
