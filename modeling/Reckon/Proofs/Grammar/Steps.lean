import Mathlib.Tactic.SplitIfs
import Reckon.Grammar.Parse

/-!
What one token can do to a reading. Each constructor of `Takes` names a stage, the kind of the
token and the reading after it; every fact about whole runs is drawn from these.
-/

namespace Reckon

namespace Reading

/-- The stages in which an atom may begin, with what stands around it. -/
inductive AtomBegins : Stage → Inside → Prop where
  | due (inside : Inside) : AtomBegins (.atomDue inside) inside
  | bare : AtomBegins .start (.start .bare)

/-- The stages in which an identifier has been read that may turn out to name a callable. -/
inductive NameRead : Stage → Inside → Token → Prop where
  | inside (inside : Inside) (name : Token) : NameRead (.nameRead inside name) inside name
  | bare (name : Token) : NameRead (.named name) (.start .bare) name

/-- The stages in which an atom has been read. -/
inductive AtomRead : Stage → Inside → Tree → Prop where
  | whole (inside : Inside) (atom : Tree) : AtomRead (.atomRead inside atom) inside atom
  | name {stage : Stage} {inside : Inside} {name : Token} (read : NameRead stage inside name) :
      AtomRead stage inside (.atomOf (.ofToken .identifier name))

/-- The kinds of numbers with the productions of their leaves. -/
inductive NumberLeaf : TokenKind → Production → Prop where
  | int : NumberLeaf .int .intLiteral
  | num : NumberLeaf .num .numLiteral

/-- The token continues the reading, which then is as given. -/
inductive Takes : Reading → Token → Reading → Prop where
  | newline {finished : List Tree} {token : Token} (kind : token.kind = .newline) :
      Takes ⟨finished, .start⟩ token ⟨.ofToken .newline token :: finished, .start⟩
  | stop {finished : List Tree} {token : Token} (kind : token.kind = .eof) :
      Takes ⟨finished, .start⟩ token ⟨finished, .start⟩
  | echo {finished : List Tree} {token : Token} (kind : token.kind = .echo) :
      Takes ⟨finished, .start⟩ token ⟨finished, .atomDue (.start (.echo token))⟩
  | name {finished : List Tree} {token : Token} (kind : token.kind = .ident) :
      Takes ⟨finished, .start⟩ token ⟨finished, .named token⟩
  | assign {finished : List Tree} {name token : Token} (kind : token.kind = .equals) :
      Takes ⟨finished, .named name⟩ token ⟨finished, .atomDue (.start (.assign name))⟩
  | colon {finished : List Tree} {name token : Token} (kind : token.kind = .colon) :
      Takes ⟨finished, .named name⟩ token ⟨finished, .definition name⟩
  | define {finished : List Tree} {name token : Token} (kind : token.kind = .equals) :
      Takes ⟨finished, .definition name⟩ token ⟨finished, .atomDue (.start (.define name none))⟩
  | declared {finished : List Tree} {name token : Token} (kind : token.kind = .ident) :
      Takes ⟨finished, .definition name⟩ token ⟨finished, .kindRead name token⟩
  | defineAs {finished : List Tree} {name declared token : Token} (kind : token.kind = .equals) :
      Takes ⟨finished, .kindRead name declared⟩ token
        ⟨finished, .atomDue (.start (.define name (some declared)))⟩
  | openSignature {finished : List Tree} {name declared token : Token}
      (kind : token.kind = .leftParen) :
      Takes ⟨finished, .kindRead name declared⟩ token
        ⟨finished, .parameterDue ⟨name, declared, token, []⟩⟩
  | parameterName {finished : List Tree} {signature : OpenSignature} {token : Token}
      (kind : token.kind = .ident) :
      Takes ⟨finished, .parameterDue signature⟩ token ⟨finished, .parameterNamed signature token⟩
  | parameterColon {finished : List Tree} {signature : OpenSignature} {name token : Token}
      (kind : token.kind = .colon) :
      Takes ⟨finished, .parameterNamed signature name⟩ token
        ⟨finished, .parameterKindDue signature name⟩
  | parameterKind {finished : List Tree} {signature : OpenSignature} {name token : Token}
      (kind : token.kind = .ident) :
      Takes ⟨finished, .parameterKindDue signature name⟩ token
        ⟨finished, .parameterRead signature name token⟩
  | parameterComma {finished : List Tree} {signature : OpenSignature} {name declared token : Token}
      (kind : token.kind = .comma) :
      Takes ⟨finished, .parameterRead signature name declared⟩ token
        ⟨finished, .parameterDue { signature with parameters :=
          ⟨name, .ofToken .identifier declared, some token⟩ :: signature.parameters }⟩
  | lastParameter {finished : List Tree} {signature : OpenSignature} {name declared token : Token}
      (kind : token.kind = .rightParen) :
      Takes ⟨finished, .parameterRead signature name declared⟩ token
        ⟨finished, .signatureRead signature.name (OpenSignature.finish { signature with
          parameters := ⟨name, .ofToken .identifier declared, none⟩ :: signature.parameters }
            token)⟩
  | closeSignature {finished : List Tree} {signature : OpenSignature} {token : Token}
      (kind : token.kind = .rightParen) :
      Takes ⟨finished, .parameterDue signature⟩ token
        ⟨finished, .signatureRead signature.name (signature.finish token)⟩
  | defineCallable {finished : List Tree} {name token : Token} {signature : Tree}
      (kind : token.kind = .equals) :
      Takes ⟨finished, .signatureRead name signature⟩ token
        ⟨finished, .atomDue (.start (.callable name signature))⟩
  | openGroup {finished : List Tree} {stage : Stage} {inside : Inside} {token : Token}
      (begins : AtomBegins stage inside) (kind : token.kind = .leftParen) :
      Takes ⟨finished, stage⟩ token ⟨finished, .atomDue (inside.enter (.group token))⟩
  | number {finished : List Tree} {stage : Stage} {inside : Inside} {token : Token}
      {production : Production} (begins : AtomBegins stage inside)
      (leaf : NumberLeaf token.kind production) :
      Takes ⟨finished, stage⟩ token
        ⟨finished, .atomRead inside (.atomOf (.ofToken production token))⟩
  | sign {finished : List Tree} {stage : Stage} {inside : Inside} {token : Token}
      (begins : AtomBegins stage inside) (kind : token.kind = .plus ∨ token.kind = .minus) :
      Takes ⟨finished, stage⟩ token ⟨finished, .signRead inside token⟩
  | signedNumber {finished : List Tree} {inside : Inside} {sign token : Token}
      {production : Production} (adjacent : sign.isAdjacent token = true)
      (leaf : NumberLeaf token.kind production) :
      Takes ⟨finished, .signRead inside sign⟩ token
        ⟨finished, .atomRead inside (literal production sign token)⟩
  | atomName {finished : List Tree} {inside : Inside} {token : Token}
      (kind : token.kind = .ident) :
      Takes ⟨finished, .atomDue inside⟩ token ⟨finished, .nameRead inside token⟩
  | openCall {finished : List Tree} {stage : Stage} {inside : Inside} {name token : Token}
      (read : NameRead stage inside name) (kind : token.kind = .leftParen) :
      Takes ⟨finished, stage⟩ token ⟨finished, .argumentDue inside ⟨name, token, []⟩⟩
  | argumentName {finished : List Tree} {inside : Inside} {call : OpenCall} {token : Token}
      (kind : token.kind = .ident) :
      Takes ⟨finished, .argumentDue inside call⟩ token ⟨finished, .argumentNamed inside call token⟩
  | argumentEquals {finished : List Tree} {inside : Inside} {call : OpenCall} {name token : Token}
      (kind : token.kind = .equals) :
      Takes ⟨finished, .argumentNamed inside call name⟩ token
        ⟨finished, .atomDue (inside.enter (.argument call name))⟩
  | closeCall {finished : List Tree} {inside : Inside} {call : OpenCall} {token : Token}
      (kind : token.kind = .rightParen) (distinct : call.repeated? = none) :
      Takes ⟨finished, .argumentDue inside call⟩ token
        ⟨finished, .atomRead inside (call.finish token)⟩
  | caret {finished : List Tree} {stage : Stage} {inside : Inside} {atom : Tree} {token : Token}
      (read : AtomRead stage inside atom) (kind : token.kind = .caret) :
      Takes ⟨finished, stage⟩ token
        ⟨finished, .atomDue { inside with chain := inside.chain.raise atom }⟩
  | multiplicative {finished : List Tree} {stage : Stage} {inside : Inside} {atom : Tree}
      {token : Token} (read : AtomRead stage inside atom)
      (kind : token.kind = .star ∨ token.kind = .slash) :
      Takes ⟨finished, stage⟩ token
        ⟨finished, .atomDue { inside with chain := inside.chain.multiply atom token }⟩
  | additive {finished : List Tree} {stage : Stage} {inside : Inside} {atom : Tree} {token : Token}
      (read : AtomRead stage inside atom) (kind : token.kind = .plus ∨ token.kind = .minus) :
      Takes ⟨finished, stage⟩ token
        ⟨finished, .atomDue { inside with chain := inside.chain.add atom token }⟩
  | endLine {finished : List Tree} {stage : Stage} {head : Head} {chain : Chain} {atom : Tree}
      {token : Token} (read : AtomRead stage ⟨head, [], chain⟩ atom)
      (kind : token.kind = .newline) :
      Takes ⟨finished, stage⟩ token
        ⟨.ofToken .newline token :: head.finish (chain.finish atom) :: finished, .start⟩
  | endProgram {finished : List Tree} {stage : Stage} {head : Head} {chain : Chain} {atom : Tree}
      {token : Token} (read : AtomRead stage ⟨head, [], chain⟩ atom) (kind : token.kind = .eof) :
      Takes ⟨finished, stage⟩ token ⟨head.finish (chain.finish atom) :: finished, .start⟩
  | closeGroup {finished : List Tree} {stage : Stage} {head : Head} {chain around : Chain}
      {opening token : Token} {openings : List Opening} {atom : Tree}
      (read : AtomRead stage ⟨head, .group opening around :: openings, chain⟩ atom)
      (kind : token.kind = .rightParen) :
      Takes ⟨finished, stage⟩ token
        ⟨finished, .atomRead ⟨head, openings, around⟩ (.group opening (chain.finish atom) token)⟩
  | argumentComma {finished : List Tree} {stage : Stage} {head : Head} {chain around : Chain}
      {call : OpenCall} {name token : Token} {openings : List Opening} {atom : Tree}
      (read : AtomRead stage ⟨head, .argument call name around :: openings, chain⟩ atom)
      (kind : token.kind = .comma) :
      Takes ⟨finished, stage⟩ token
        ⟨finished, .argumentDue ⟨head, openings, around⟩ { call with
          arguments := ⟨name, chain.finish atom, some token⟩ :: call.arguments }⟩
  | lastArgument {finished : List Tree} {stage : Stage} {head : Head} {chain around : Chain}
      {call : OpenCall} {name token : Token} {openings : List Opening} {atom : Tree}
      (read : AtomRead stage ⟨head, .argument call name around :: openings, chain⟩ atom)
      (kind : token.kind = .rightParen)
      (distinct : OpenCall.repeated? { call with
        arguments := ⟨name, chain.finish atom, none⟩ :: call.arguments } = none) :
      Takes ⟨finished, stage⟩ token
        ⟨finished, .atomRead ⟨head, openings, around⟩ (OpenCall.finish { call with
          arguments := ⟨name, chain.finish atom, none⟩ :: call.arguments } token)⟩

section

variable {reading next : Reading} {stage : Stage} {inside : Inside} {token : Token}

theorem takes_of_line_end {finished : List Tree} (ended : lineEnd finished token = .ok next) :
    (token.kind = .newline ∧ next = ⟨.ofToken .newline token :: finished, .start⟩) ∨
      (token.kind = .eof ∧ next = ⟨finished, .start⟩) := by
  unfold lineEnd at ended
  split at ended
  · next kind => exact .inl ⟨kind, (Except.ok.inj ended).symm⟩
  · next kind => exact .inr ⟨kind, (Except.ok.inj ended).symm⟩
  · cases ended

theorem of_close_call {call : OpenCall} (closed : reading.closeCall inside call token = .ok next) :
    call.repeated? = none ∧ token.kind = .rightParen ∧
      next = ⟨reading.finished, .atomRead inside (call.finish token)⟩ := by
  unfold closeCall at closed
  split at closed
  · cases closed
  · next distinct =>
      split_ifs at closed with kind
      exact ⟨distinct, kind, (Except.ok.inj closed).symm⟩

theorem takes_of_after_atom {atom : Tree} (read : AtomRead stage inside atom)
    (after : reading.afterAtom inside atom token = .ok next) :
    Takes ⟨reading.finished, stage⟩ token next := by
  unfold afterAtom at after
  split at after
  · next kind =>
      cases after
      exact .caret read kind
  · next kind =>
      cases after
      exact .multiplicative read (.inl kind)
  · next kind =>
      cases after
      exact .multiplicative read (.inr kind)
  · next kind =>
      cases after
      exact .additive read (.inl kind)
  · next kind =>
      cases after
      exact .additive read (.inr kind)
  · obtain ⟨head, openings, chain⟩ := inside
    cases openings with
    | nil =>
        rcases takes_of_line_end after with ⟨kind, rfl⟩ | ⟨kind, rfl⟩
        · exact .endLine read kind
        · exact .endProgram read kind
    | cons opening openings =>
        cases opening with
        | group opening around =>
            simp only [closeExpr] at after
            split_ifs at after with kind
            cases after
            exact .closeGroup read kind
        | argument call name around =>
            simp only [closeExpr] at after
            split_ifs at after with kind
            · cases after
              exact .argumentComma read kind
            · obtain ⟨distinct, kind, rfl⟩ := of_close_call after
              exact .lastArgument read kind distinct

theorem takes_of_after_name {name : Token} (read : NameRead stage inside name)
    (after : reading.afterName inside name token = .ok next) :
    Takes ⟨reading.finished, stage⟩ token next := by
  unfold afterName at after
  split at after
  · next kind =>
      cases after
      exact .openCall read kind
  · exact takes_of_after_atom (.name read) after

theorem takes_of_begin_atom (begins : AtomBegins stage inside)
    (named : token.kind = .ident → stage = .atomDue inside)
    (began : reading.beginAtom inside token = .ok next) :
    Takes ⟨reading.finished, stage⟩ token next := by
  unfold beginAtom at began
  split at began
  · next kind =>
      cases began
      exact .openGroup begins kind
  · next kind =>
      cases began
      rw [named kind]
      exact .atomName kind
  · next kind =>
      cases began
      exact .number begins (by rw [kind]; exact .int)
  · next kind =>
      cases began
      exact .number begins (by rw [kind]; exact .num)
  · next kind =>
      cases began
      exact .sign begins (.inl kind)
  · next kind =>
      cases began
      exact .sign begins (.inr kind)
  · cases began

theorem takes_of_after_sign {sign : Token}
    (after : reading.afterSign inside sign token = .ok next) :
    Takes ⟨reading.finished, .signRead inside sign⟩ token next := by
  unfold afterSign at after
  split_ifs at after with adjacent
  split at after
  · next kind =>
      cases after
      exact .signedNumber adjacent (by rw [kind]; exact .int)
  · next kind =>
      cases after
      exact .signedNumber adjacent (by rw [kind]; exact .num)
  · cases after

theorem takes_of_begin_statement
    (began : reading.beginStatement token = .ok next) :
    Takes ⟨reading.finished, .start⟩ token next := by
  unfold beginStatement at began
  split at began
  · next kind =>
      rcases takes_of_line_end began with ⟨kind, rfl⟩ | ⟨kind, rfl⟩
      · exact .newline kind
      · exact .stop kind
  · next kind =>
      rcases takes_of_line_end began with ⟨kind, rfl⟩ | ⟨kind, rfl⟩
      · exact .newline kind
      · exact .stop kind
  · next kind =>
      cases began
      exact .echo kind
  · next kind =>
      cases began
      exact .name kind
  · next other => exact takes_of_begin_atom .bare (fun kind => absurd kind other) began

theorem of_close_signature {signature : OpenSignature}
    (closed : reading.closeSignature signature token = .ok next) :
    token.kind = .rightParen ∧
      next = ⟨reading.finished, .signatureRead signature.name (signature.finish token)⟩ := by
  unfold closeSignature at closed
  split_ifs at closed with kind
  exact ⟨kind, (Except.ok.inj closed).symm⟩

/-- Every step that succeeds is one of those listed. -/
theorem takes_of_step (stepped : reading.step token = .ok next) : Takes reading token next := by
  obtain ⟨finished, stage⟩ := reading
  unfold step at stepped
  cases stage with
  | start => exact takes_of_begin_statement stepped
  | named name =>
      simp only at stepped
      split at stepped
      · next kind =>
          cases stepped
          exact .colon kind
      · next kind =>
          cases stepped
          exact .assign kind
      · exact takes_of_after_name (.bare name) stepped
  | definition name =>
      simp only at stepped
      split at stepped
      · next kind =>
          cases stepped
          exact .define kind
      · next kind =>
          cases stepped
          exact .declared kind
      · cases stepped
  | kindRead name declared =>
      simp only at stepped
      split at stepped
      · next kind =>
          cases stepped
          exact .defineAs kind
      · next kind =>
          cases stepped
          exact .openSignature kind
      · cases stepped
  | parameterDue signature =>
      simp only at stepped
      split at stepped
      · obtain ⟨kind, rfl⟩ := of_close_signature stepped
        exact .closeSignature kind
      · next kind =>
          cases stepped
          exact .parameterName kind
      · cases stepped
  | parameterNamed signature name =>
      simp only at stepped
      split at stepped
      · next kind =>
          cases stepped
          exact .parameterColon kind
      · cases stepped
  | parameterKindDue signature name =>
      simp only at stepped
      split at stepped
      · next kind =>
          cases stepped
          exact .parameterKind kind
      · cases stepped
  | parameterRead signature name declared =>
      simp only at stepped
      split at stepped
      · next kind =>
          cases stepped
          exact .parameterComma kind
      · obtain ⟨kind, rfl⟩ := of_close_signature stepped
        exact .lastParameter kind
  | signatureRead name signature =>
      simp only at stepped
      split at stepped
      · next kind =>
          cases stepped
          exact .defineCallable kind
      · cases stepped
  | atomDue inside => exact takes_of_begin_atom (.due inside) (fun _ => rfl) stepped
  | signRead inside sign => exact takes_of_after_sign stepped
  | nameRead inside name => exact takes_of_after_name (.inside inside name) stepped
  | atomRead inside atom => exact takes_of_after_atom (.whole inside atom) stepped
  | argumentDue inside call =>
      simp only at stepped
      split at stepped
      · obtain ⟨distinct, kind, rfl⟩ := of_close_call stepped
        exact .closeCall kind distinct
      · next kind =>
          cases stepped
          exact .argumentName kind
      · cases stepped
  | argumentNamed inside call name =>
      simp only at stepped
      split at stepped
      · next kind =>
          cases stepped
          exact .argumentEquals kind
      · cases stepped

/-- What follows an identifier is seen the same way wherever that stands, unless it makes the
identifier the name of something. -/
theorem step_after_atom {finished : List Tree} {atom : Tree} (read : AtomRead stage inside atom)
    (other : token.kind ∉ [.leftParen, .colon, .equals]) :
    Reading.step ⟨finished, stage⟩ token =
      Reading.afterAtom ⟨finished, stage⟩ inside atom token := by
  simp only [List.mem_cons, List.not_mem_nil, or_false, not_or] at other
  cases read with
  | whole => rfl
  | name read => cases read <;> simp [step, afterName, other]

theorem step_after_name {finished : List Tree} {name : Token} (read : NameRead stage inside name)
    (kind : token.kind = .leftParen) :
    Reading.step ⟨finished, stage⟩ token =
      .ok ⟨finished, .argumentDue inside ⟨name, token, []⟩⟩ := by
  cases read <;> simp [step, afterName, kind, Reading.next]

theorem step_begin_atom {finished : List Tree} (begins : AtomBegins stage inside)
    (other : token.kind ∉ [.newline, .eof, .echo, .ident]) :
    Reading.step ⟨finished, stage⟩ token = Reading.beginAtom ⟨finished, stage⟩ inside token := by
  simp only [List.mem_cons, List.not_mem_nil, or_false, not_or] at other
  cases begins with
  | due => rfl
  | bare => simp [step, beginStatement, other]

theorem step_of_takes (takes : Takes reading token next) : reading.step token = .ok next := by
  cases takes with
  | newline kind => simp [step, beginStatement, lineEnd, kind]
  | stop kind => simp [step, beginStatement, lineEnd, kind]
  | echo kind => simp [step, beginStatement, kind, Reading.next]
  | name kind => simp [step, beginStatement, kind, Reading.next]
  | assign kind => simp [step, kind, Reading.next]
  | colon kind => simp [step, kind, Reading.next]
  | define kind => simp [step, kind, Reading.next]
  | declared kind => simp [step, kind, Reading.next]
  | defineAs kind => simp [step, kind, Reading.next]
  | openSignature kind => simp [step, kind, Reading.next]
  | parameterName kind => simp [step, kind, Reading.next]
  | parameterColon kind => simp [step, kind, Reading.next]
  | parameterKind kind => simp [step, kind, Reading.next]
  | parameterComma kind => simp [step, kind, Reading.next]
  | lastParameter kind => simp [step, closeSignature, kind, Reading.next]
  | closeSignature kind => simp [step, Reading.closeSignature, kind, Reading.next]
  | defineCallable kind => simp [step, kind, Reading.next]
  | openGroup begins kind =>
      rw [step_begin_atom begins (by simp [kind])]
      simp [beginAtom, kind, Reading.next]
  | number begins leaf =>
      generalize kind : token.kind = tokenKind at leaf
      cases leaf <;> rw [step_begin_atom begins (by simp [kind])] <;>
        simp [beginAtom, kind, Reading.next]
  | sign begins kind =>
      rcases kind with kind | kind <;> rw [step_begin_atom begins (by simp [kind])] <;>
        simp [beginAtom, kind, Reading.next]
  | signedNumber adjacent leaf =>
      generalize kind : token.kind = tokenKind at leaf
      cases leaf <;> simp [step, afterSign, adjacent, kind, Reading.next]
  | atomName kind => simp [step, beginAtom, kind, Reading.next]
  | openCall read kind => exact step_after_name read kind
  | argumentName kind => simp [step, kind, Reading.next]
  | argumentEquals kind => simp [step, kind, Reading.next]
  | closeCall kind distinct => simp [step, Reading.closeCall, kind, distinct, Reading.next]
  | caret read kind =>
      rw [step_after_atom read (by simp [kind])]
      simp [afterAtom, kind, Reading.next]
  | multiplicative read kind =>
      rcases kind with kind | kind <;> rw [step_after_atom read (by simp [kind])] <;>
        simp [afterAtom, kind, Reading.next]
  | additive read kind =>
      rcases kind with kind | kind <;> rw [step_after_atom read (by simp [kind])] <;>
        simp [afterAtom, kind, Reading.next]
  | endLine read kind =>
      rw [step_after_atom read (by simp [kind])]
      simp [afterAtom, closeExpr, lineEnd, kind]
  | endProgram read kind =>
      rw [step_after_atom read (by simp [kind])]
      simp [afterAtom, closeExpr, lineEnd, kind]
  | closeGroup read kind =>
      rw [step_after_atom read (by simp [kind])]
      simp [afterAtom, closeExpr, kind, Reading.next]
  | argumentComma read kind =>
      rw [step_after_atom read (by simp [kind])]
      simp [afterAtom, closeExpr, kind, Reading.next]
  | lastArgument read kind distinct =>
      rw [step_after_atom read (by simp [kind])]
      simp [afterAtom, closeExpr, Reading.closeCall, kind, distinct, Reading.next]

end

theorem run_cons (reading : Reading) (token : Token) (tokens : List Token) :
    reading.run (token :: tokens) = reading.step token >>= (·.run tokens) :=
  List.foldlM_cons

/-- A run that succeeds takes its first token and goes on from there. -/
theorem takes_of_run_cons {reading last : Reading} {token : Token} {tokens : List Token}
    (ran : reading.run (token :: tokens) = .ok last) :
    ∃ next, Takes reading token next ∧ next.run tokens = .ok last := by
  rw [run_cons] at ran
  cases stepped : reading.step token with
  | error error => simp [stepped, bind, Except.bind] at ran
  | ok next =>
      rw [stepped] at ran
      exact ⟨next, takes_of_step stepped, ran⟩

/-- A run over two lists is one over the first and then one over the second. -/
theorem run_of_append {reading last : Reading} {first second : List Token}
    (ran : reading.run (first ++ second) = .ok last) :
    ∃ middle, reading.run first = .ok middle ∧ middle.run second = .ok last := by
  rw [run_append] at ran
  cases begun : reading.run first with
  | error error =>
      rw [begun] at ran
      cases ran
  | ok middle =>
      rw [begun] at ran
      exact ⟨middle, rfl, ran⟩

end Reading

end Reckon
