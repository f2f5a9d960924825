import Reckon.Proofs.Grammar.Yield

/-!
What a token is refused for. An error blames the token that cannot stand where it does, or the sign
held before it, or a name that the innermost call gives twice; and where a parenthesis is missing,
the one it should close is the innermost that is open.
-/

namespace Reckon

theorem ParseError.code_of_expectation (expected : Expectation) :
    codeOf expected ∉ [.unclosedParen, .detachedSign, .repeatedArgument] := by
  unfold codeOf
  split <;> decide

namespace Opening

def paren : Opening → Token
  | .group opening _ => opening
  | .argument call _ _ => call.opening

end Opening

namespace Inside

/-- The parentheses that are open, innermost first. -/
def parens (inside : Inside) : List Token := inside.openings.map Opening.paren

/-- The names given in the call that the expression is an argument of, its own included. -/
def givenNames (inside : Inside) : List Token :=
  match inside.openings with
  | .argument call name _ :: _ => call.arguments.reverse.map (·.name) ++ [name]
  | _ => []

end Inside

namespace Stage

/-- The parentheses that are open, innermost first. -/
def parens : Stage → List Token
  | .parameterDue signature | .parameterNamed signature _ | .parameterKindDue signature _
  | .parameterRead signature _ _ => [signature.opening]
  | .atomDue inside | .signRead inside _ | .nameRead inside _ | .atomRead inside _ => inside.parens
  | .argumentDue inside call | .argumentNamed inside call _ => call.opening :: inside.parens
  | .start | .named _ | .definition _ | .kindRead _ _ | .signatureRead _ _ => []

/-- The names given in the innermost open call, in the order written. -/
def givenNames : Stage → List Token
  | .nameRead inside _ | .atomRead inside _ => inside.givenNames
  | .argumentDue _ call => call.arguments.reverse.map (·.name)
  | _ => []

end Stage

namespace Reading

/-- What a token may be refused for. -/
inductive Blames (stage : Stage) (token : Token) : ParseError → Prop where
  | unexpected (expected : Expectation) :
      Blames stage token (.unexpected expected token.kind token.location)
  | unclosedParen {opening : Token} (innermost : stage.parens.head? = some opening) :
      Blames stage token (.unclosedParen opening.span token.kind token.location)
  | detachedSign {sign : Token} (held : stage.heldSign = [sign]) :
      Blames stage token (.detachedSign sign.kind sign.location)
  | repeatedArgument {name : Token} (repeated : firstRepeated [] stage.givenNames = some name) :
      Blames stage token (.repeatedArgument name.text name.location)

variable {reading next : Reading} {stage : Stage} {inside : Inside} {token : Token}
  {error : ParseError}

/-- Only a sign or a name before the token is blamed in its stead. -/
theorem Blames.located (blames : Blames stage token error)
    (notRepeated : error.code ≠ .repeatedArgument) (notDetached : error.code ≠ .detachedSign) :
    error.location = token.location := by
  cases blames with
  | unexpected => rfl
  | unclosedParen => rfl
  | detachedSign => exact absurd rfl notDetached
  | repeatedArgument => exact absurd rfl notRepeated

/-- A missing parenthesis is related to the innermost one that is open. -/
theorem Blames.related (blames : Blames stage token error)
    (unclosed : error.code = .unclosedParen) :
    ∃ opening, stage.parens.head? = some opening ∧ error.related? = some opening.span := by
  cases blames with
  | unexpected expected =>
      refine absurd ?_ (ParseError.code_of_expectation expected)
      rw [show ParseError.codeOf expected = .unclosedParen from unclosed]
      decide
  | unclosedParen innermost => exact ⟨_, innermost, rfl⟩
  | detachedSign => cases unclosed
  | repeatedArgument => cases unclosed

theorem atom_read_parens {atom : Tree} (read : AtomRead stage inside atom) :
    stage.parens = inside.parens ∧ stage.givenNames = inside.givenNames := by
  cases read with
  | whole => exact ⟨rfl, rfl⟩
  | name read => cases read <;> exact ⟨rfl, rfl⟩

theorem atom_begins_parens (begins : AtomBegins stage inside) : stage.parens = inside.parens := by
  cases begins <;> rfl

theorem blames_of_line_end {finished : List Tree} (failed : lineEnd finished token = .error error) :
    Blames stage token error := by
  unfold lineEnd at failed
  split at failed
  · cases failed
  · cases failed
  · cases failed
    exact .unexpected _

theorem blames_of_close_call {call : OpenCall}
    (failed : reading.closeCall inside call token = .error error)
    (innermost : stage.parens.head? = some call.opening)
    (given : stage.givenNames = call.arguments.reverse.map (·.name)) :
    Blames stage token error := by
  unfold closeCall at failed
  split at failed
  · next repeated =>
      cases failed
      exact .repeatedArgument (given ▸ repeated)
  · split_ifs at failed
    · cases failed
    · cases failed
      exact .unclosedParen innermost

theorem blames_of_after_atom {atom : Tree} (read : AtomRead stage inside atom)
    (failed : reading.afterAtom inside atom token = .error error) : Blames stage token error := by
  obtain ⟨parens, given⟩ := atom_read_parens read
  obtain ⟨head, openings, chain⟩ := inside
  unfold afterAtom at failed
  split at failed
  · cases failed
  · cases failed
  · cases failed
  · cases failed
  · cases failed
  · cases openings with
    | nil => exact blames_of_line_end failed
    | cons opening openings =>
        have innermost : stage.parens.head? = some opening.paren := by rw [parens]; rfl
        cases opening with
        | group opening around =>
            simp only [closeExpr] at failed
            split_ifs at failed
            · cases failed
            · cases failed
              exact .unclosedParen innermost
        | argument call name around =>
            simp only [closeExpr] at failed
            split_ifs at failed
            · cases failed
            · refine blames_of_close_call failed innermost ?_
              rw [given, List.reverse_cons, List.map_append]
              rfl

theorem blames_of_after_name {name : Token} (read : NameRead stage inside name)
    (failed : reading.afterName inside name token = .error error) : Blames stage token error := by
  unfold afterName at failed
  split at failed
  · cases failed
  · exact blames_of_after_atom (.name read) failed

theorem blames_of_begin_atom (failed : reading.beginAtom inside token = .error error) :
    Blames stage token error := by
  unfold beginAtom at failed
  split at failed
  all_goals cases failed
  exact .unexpected _

theorem blames_of_begin_statement (failed : reading.beginStatement token = .error error) :
    Blames stage token error := by
  unfold beginStatement at failed
  split at failed
  · exact blames_of_line_end failed
  · exact blames_of_line_end failed
  · cases failed
  · cases failed
  · exact blames_of_begin_atom failed

theorem blames_of_after_sign {sign : Token}
    (failed : reading.afterSign inside sign token = .error error) :
    Blames (.signRead inside sign) token error := by
  unfold afterSign at failed
  split_ifs at failed
  · split at failed
    all_goals cases failed
    exact .detachedSign rfl
  · cases failed
    exact .detachedSign rfl

theorem blames_of_close_signature {signature : OpenSignature}
    (failed : reading.closeSignature signature token = .error error)
    (innermost : stage.parens.head? = some signature.opening) : Blames stage token error := by
  unfold closeSignature at failed
  split_ifs at failed
  · cases failed
  · cases failed
    exact .unclosedParen innermost

/-- A token that is refused is blamed by the error, unless a sign or a name before it is. -/
theorem blames_of_step_error (failed : reading.step token = .error error) :
    Blames reading.stage token error := by
  obtain ⟨finished, stage⟩ := reading
  unfold step at failed
  cases stage with
  | start => exact blames_of_begin_statement failed
  | named name =>
      simp only at failed
      split at failed
      · cases failed
      · cases failed
      · exact blames_of_after_name (.bare name) failed
  | parameterDue signature =>
      simp only at failed
      split at failed
      · exact blames_of_close_signature failed rfl
      · cases failed
      · cases failed
        exact .unexpected _
  | parameterRead signature name kind =>
      simp only at failed
      split at failed
      · cases failed
      · exact blames_of_close_signature failed rfl
  | atomDue inside => exact blames_of_begin_atom failed
  | signRead inside sign => exact blames_of_after_sign failed
  | nameRead inside name => exact blames_of_after_name (.inside inside name) failed
  | atomRead inside atom => exact blames_of_after_atom (.whole inside atom) failed
  | argumentDue inside call =>
      simp only at failed
      split at failed
      · exact blames_of_close_call failed rfl rfl
      · cases failed
      · cases failed
        exact .unexpected _
  | _ =>
      simp only at failed
      split at failed
      all_goals cases failed
      exact .unexpected _

/-- A run that fails does so at one token, and has taken those before it. -/
theorem refused_of_run_error {tokens : List Token} (failed : reading.run tokens = .error error) :
    ∃ before token rest next, tokens = before ++ token :: rest ∧
      reading.run before = .ok next ∧ next.step token = .error error := by
  induction tokens generalizing reading with
  | nil => cases failed
  | cons token tokens induction =>
      rw [run_cons] at failed
      cases stepped : reading.step token with
      | error first =>
          rw [stepped] at failed
          cases failed
          exact ⟨[], token, tokens, reading, rfl, rfl, stepped⟩
      | ok middle =>
          rw [stepped] at failed
          obtain ⟨before, blamed, rest, next, rfl, ran, refused⟩ := induction failed
          refine ⟨token :: before, blamed, rest, next, rfl, ?_, refused⟩
          rw [run_cons, stepped]
          exact ran

end Reading

/-- The open parentheses after one more token, innermost first. -/
def nowUnmatched (opened : List Token) (token : Token) : List Token :=
  match token.kind with
  | .leftParen => token :: opened
  | .rightParen => opened.tail
  | _ => opened

/-- The opening parentheses in a list of tokens that no closing one matches, the last first. -/
def unmatchedParens (tokens : List Token) : List Token := tokens.foldl nowUnmatched []

namespace Reading

variable {reading next : Reading} {token : Token}

/-- A token opens a parenthesis, or closes the innermost, or leaves them as they are. -/
theorem parens_of_takes (takes : Takes reading token next) :
    next.stage.parens = nowUnmatched reading.stage.parens token := by
  cases takes with
  | openGroup begins kind =>
      rw [atom_begins_parens begins]
      simp [nowUnmatched, Stage.parens, Inside.parens, Inside.enter, Opening.paren, kind]
  | number begins leaf =>
      rw [atom_begins_parens begins]
      generalize found : token.kind = kind at leaf
      cases leaf <;> simp [nowUnmatched, Stage.parens, found]
  | sign begins kind =>
      rw [atom_begins_parens begins]
      rcases kind with kind | kind <;> simp [nowUnmatched, Stage.parens, kind]
  | signedNumber adjacent leaf =>
      generalize found : token.kind = kind at leaf
      cases leaf <;> simp [nowUnmatched, Stage.parens, found]
  | openCall read kind =>
      rw [(atom_read_parens (.name read)).1]
      simp [nowUnmatched, Stage.parens, kind]
  | caret read kind =>
      rw [(atom_read_parens read).1]
      simp [nowUnmatched, Stage.parens, Inside.parens, kind]
  | multiplicative read kind =>
      rw [(atom_read_parens read).1]
      rcases kind with kind | kind <;> simp [nowUnmatched, Stage.parens, Inside.parens, kind]
  | additive read kind =>
      rw [(atom_read_parens read).1]
      rcases kind with kind | kind <;> simp [nowUnmatched, Stage.parens, Inside.parens, kind]
  | endLine read kind | endProgram read kind | closeGroup read kind | argumentComma read kind
  | lastArgument read kind =>
      rw [(atom_read_parens read).1]
      simp [nowUnmatched, Stage.parens, Inside.parens, Opening.paren, kind]
  | _ =>
      simp [nowUnmatched, Stage.parens, Inside.parens, Inside.start, Inside.enter, Opening.paren, *]

theorem parens_of_run {tokens : List Token} (ran : reading.run tokens = .ok next) :
    next.stage.parens = tokens.foldl nowUnmatched reading.stage.parens := by
  induction tokens generalizing reading with
  | nil =>
      cases ran
      rfl
  | cons token tokens induction =>
      obtain ⟨middle, takes, rest⟩ := takes_of_run_cons ran
      rw [induction rest, parens_of_takes takes, List.foldl_cons]

end Reading

end Reckon
