import Reckon.Proofs.Grammar.Steps
import Reckon.Proofs.Tree.Spelling

/-!
What a reading has been spelled with. Unfinished constructs have leaves as trees have, and to finish
a construct neither loses nor adds one. So the leaves of a reading are always those that the tokens
taken so far spell.
-/

namespace Reckon

namespace Tree

@[simp] theorem of_token_lexemes (production : Production) (token : Token) :
    (Tree.ofToken production token).lexemes = [.ofToken production token.text] := rfl

@[simp] theorem atom_of_lexemes (inner : Tree) : (Tree.atomOf inner).lexemes = inner.lexemes := by
  simp [atomOf, lexemes, pieceLexemes]

@[simp] theorem group_lexemes (opening closing : Token) (inner : Tree) :
    (Tree.group opening inner closing).lexemes =
      .symbol opening.text :: inner.lexemes ++ [.symbol closing.text] := by
  simp [group, lexemes, pieceLexemes, Lexeme.ofToken]

@[simp] theorem factor_of_lexemes (base : Tree) : (Tree.factorOf base).lexemes = base.lexemes := by
  simp [factorOf, lexemes, pieceLexemes]

@[simp] theorem power_lexemes (base exponent : Tree) : (Tree.power base exponent).lexemes =
    base.lexemes ++ .symbol "^" :: exponent.lexemes := by
  simp [power, lexemes, pieceLexemes, Lexeme.ofToken]

end Tree

def baseLexemes (base : Tree) : List Lexeme := base.lexemes ++ [.symbol "^"]

/-- The leaves of an operand with the operator after it. -/
def operandLexemes (operand : Tree × Token) : List Lexeme :=
  operand.1.lexemes ++ [.symbol operand.2.text]

/-- A factor after the bases that it is the exponent of, the latest first. -/
def raiseAll (bases : List Tree) (exponent : Tree) : Tree :=
  bases.foldl (fun exponent base => .power base exponent) exponent

theorem raise_all_lexemes (bases : List Tree) (exponent : Tree) :
    (raiseAll bases exponent).lexemes = bases.reverse.flatMap baseLexemes ++ exponent.lexemes := by
  induction bases generalizing exponent with
  | nil => rfl
  | cons base bases induction =>
      rw [raiseAll, List.foldl_cons, ← raiseAll, induction]
      simp [baseLexemes]

theorem finish_factor_lexemes (bases : List Tree) (atom : Tree) :
    (finishFactor bases atom).lexemes = bases.reverse.flatMap baseLexemes ++ atom.lexemes := by
  have raised := raise_all_lexemes bases (.factorOf atom)
  rwa [Tree.factor_of_lexemes] at raised

/-- Pieces of a chain after the operands before them, the latest first. -/
def chainPieces (earlier : List (Tree × Token)) (pieces : List (Piece Tree)) : List (Piece Tree) :=
  earlier.foldl (fun pieces operand => .tree operand.1 :: .token operand.2.text :: pieces) pieces

theorem chain_pieces_lexemes {production : Production}
    (symbols : ∀ text, Lexeme.ofToken production text = .symbol text)
    (earlier : List (Tree × Token)) (pieces : List (Piece Tree)) :
    Tree.pieceLexemes production (chainPieces earlier pieces) =
      earlier.reverse.flatMap operandLexemes ++ Tree.pieceLexemes production pieces := by
  induction earlier generalizing pieces with
  | nil => rfl
  | cons operand earlier induction =>
      rw [chainPieces, List.foldl_cons, ← chainPieces, induction]
      simp [operandLexemes, Tree.pieceLexemes, symbols]

theorem finish_chain_lexemes {production : Production}
    (symbols : ∀ text, Lexeme.ofToken production text = .symbol text)
    (earlier : List (Tree × Token)) (last : Tree) :
    (finishChain production earlier last).lexemes =
      earlier.reverse.flatMap operandLexemes ++ last.lexemes := by
  have pieces := chain_pieces_lexemes symbols earlier [.tree last]
  rwa [Tree.pieceLexemes, Tree.pieceLexemes, List.append_nil] at pieces

namespace Chain

def lexemes (chain : Chain) : List Lexeme :=
  chain.terms.reverse.flatMap operandLexemes ++ chain.factors.reverse.flatMap operandLexemes ++
    chain.bases.reverse.flatMap baseLexemes

@[simp] theorem empty_lexemes : empty.lexemes = [] := rfl

theorem finish_term_lexemes (chain : Chain) (atom : Tree) :
    (chain.finishTerm atom).lexemes = chain.factors.reverse.flatMap operandLexemes ++
      chain.bases.reverse.flatMap baseLexemes ++ atom.lexemes := by
  rw [finishTerm, finish_chain_lexemes (fun _ => rfl), finish_factor_lexemes, List.append_assoc]

@[simp] theorem finish_lexemes (chain : Chain) (atom : Tree) :
    (chain.finish atom).lexemes = chain.lexemes ++ atom.lexemes := by
  rw [finish, finish_chain_lexemes (fun _ => rfl), finish_term_lexemes]
  simp [lexemes]

@[simp] theorem raise_lexemes (chain : Chain) (atom : Tree) :
    (chain.raise atom).lexemes = chain.lexemes ++ atom.lexemes ++ [.symbol "^"] := by
  simp [raise, lexemes, baseLexemes]

@[simp] theorem multiply_lexemes (chain : Chain) (atom : Tree) (operator : Token) :
    (chain.multiply atom operator).lexemes =
      chain.lexemes ++ atom.lexemes ++ [.symbol operator.text] := by
  simp [multiply, lexemes, operandLexemes, finish_factor_lexemes]

@[simp] theorem add_lexemes (chain : Chain) (atom : Tree) (operator : Token) :
    (chain.add atom operator).lexemes =
      chain.lexemes ++ atom.lexemes ++ [.symbol operator.text] := by
  simp [add, lexemes, operandLexemes, finish_term_lexemes]

end Chain

namespace ListItem

def lexemes (mark : String) (item : ListItem) : List Lexeme :=
  .name item.name.text :: .symbol mark :: item.value.lexemes ++
    (item.comma?.map fun comma => .symbol comma.text).toList

theorem pieces_lexemes {production : Production}
    (symbols : ∀ text, Lexeme.ofToken production text = .symbol text) (mark : String)
    (item : ListItem) : Tree.pieceLexemes production (item.pieces mark) = item.lexemes mark := by
  obtain ⟨name, value, comma?⟩ := item
  cases comma? <;> simp [pieces, lexemes, Tree.pieceLexemes, symbols]

end ListItem

/-- Pieces of a list after the groups before them, the latest first. -/
def listPieces (mark : String) (items : List ListItem) (pieces : List (Piece Tree)) :
    List (Piece Tree) :=
  items.foldl (fun pieces item => item.pieces mark ++ pieces) pieces

theorem list_pieces_lexemes {production : Production}
    (symbols : ∀ text, Lexeme.ofToken production text = .symbol text) (mark : String)
    (items : List ListItem) (pieces : List (Piece Tree)) :
    Tree.pieceLexemes production (listPieces mark items pieces) =
      items.reverse.flatMap (ListItem.lexemes mark) ++ Tree.pieceLexemes production pieces := by
  induction items generalizing pieces with
  | nil => rfl
  | cons item items induction =>
      rw [listPieces, List.foldl_cons, ← listPieces, induction, Tree.piece_lexemes_append,
        ListItem.pieces_lexemes symbols, List.reverse_cons, List.flatMap_append,
        List.flatMap_singleton, List.append_assoc]

theorem finish_list_lexemes (production : Production)
    (symbols : ∀ text, Lexeme.ofToken production text = .symbol text) (mark : String)
    (items : List ListItem) (closing : Token) :
    (finishList production mark items closing).lexemes =
      items.reverse.flatMap (ListItem.lexemes mark) := by
  have pieces := list_pieces_lexemes symbols mark items []
  rwa [Tree.pieceLexemes, List.append_nil] at pieces

namespace OpenCall

def lexemes (call : OpenCall) : List Lexeme :=
  .name call.callee.text :: .symbol call.opening.text ::
    call.arguments.reverse.flatMap (ListItem.lexemes "=")

@[simp] theorem finish_lexemes (call : OpenCall) (closing : Token) :
    (call.finish closing).lexemes = call.lexemes ++ [.symbol closing.text] := by
  have listed := finish_list_lexemes .arguments (fun _ => rfl) "=" call.arguments closing
  simp [finish, lexemes, Tree.lexemes, Tree.pieceLexemes, listed, Lexeme.ofToken]

end OpenCall

namespace OpenSignature

def lexemes (signature : OpenSignature) : List Lexeme :=
  .name signature.name.text :: .symbol ":" :: .name signature.kind.text ::
    .symbol signature.opening.text :: signature.parameters.reverse.flatMap (ListItem.lexemes ":")

@[simp] theorem finish_lexemes (signature : OpenSignature) (closing : Token) :
    (signature.finish closing).lexemes = .name signature.kind.text ::
      .symbol signature.opening.text :: signature.parameters.reverse.flatMap
        (ListItem.lexemes ":") ++ [.symbol closing.text] := by
  have listed := finish_list_lexemes .parameters (fun _ => rfl) ":" signature.parameters closing
  simp [finish, Tree.lexemes, Tree.pieceLexemes, listed, Lexeme.ofToken]

end OpenSignature

namespace Head

def lexemes : Head → List Lexeme
  | .bare => []
  | .echo keyword => [.symbol keyword.text]
  | .assign name => [.name name.text, .symbol "="]
  | .define name none => [.name name.text, .symbol ":", .symbol "="]
  | .define name (some kind) => [.name name.text, .symbol ":", .name kind.text, .symbol "="]
  | .callable name signature =>
      .name name.text :: .symbol ":" :: signature.lexemes ++ [.symbol "="]

@[simp] theorem finish_lexemes (head : Head) (value : Tree) :
    (head.finish value).lexemes = head.lexemes ++ value.lexemes := by
  match head with
  | .bare => rfl
  | .echo _ => simp [finish, lexemes, Tree.lexemes, Tree.pieceLexemes, Lexeme.ofToken]
  | .assign _ => simp [finish, lexemes, Tree.lexemes, Tree.pieceLexemes, Lexeme.ofToken]
  | .define _ none => simp [finish, lexemes, Tree.lexemes, Tree.pieceLexemes, Lexeme.ofToken]
  | .define _ (some _) => simp [finish, lexemes, Tree.lexemes, Tree.pieceLexemes, Lexeme.ofToken]
  | .callable _ _ => simp [finish, lexemes, Tree.lexemes, Tree.pieceLexemes, Lexeme.ofToken]

end Head

namespace Opening

def lexemes : Opening → List Lexeme
  | .group opening around => around.lexemes ++ [.symbol opening.text]
  | .argument call name around =>
      around.lexemes ++ call.lexemes ++ [.name name.text, .symbol "="]

end Opening

namespace Inside

def lexemes (inside : Inside) : List Lexeme :=
  inside.head.lexemes ++ inside.openings.reverse.flatMap Opening.lexemes ++ inside.chain.lexemes

@[simp] theorem start_lexemes (head : Head) : (start head).lexemes = head.lexemes := by
  simp [start, lexemes]

end Inside

namespace Stage

/-- The leaves of the statement under way. A sign that no number has followed yet is none. -/
def lexemes : Stage → List Lexeme
  | .start => []
  | .named name => [.name name.text]
  | .definition name => [.name name.text, .symbol ":"]
  | .kindRead name kind => [.name name.text, .symbol ":", .name kind.text]
  | .parameterDue signature => signature.lexemes
  | .parameterNamed signature name => signature.lexemes ++ [.name name.text]
  | .parameterKindDue signature name => signature.lexemes ++ [.name name.text, .symbol ":"]
  | .parameterRead signature name kind =>
      signature.lexemes ++ [.name name.text, .symbol ":", .name kind.text]
  | .signatureRead name signature => .name name.text :: .symbol ":" :: signature.lexemes
  | .atomDue inside => inside.lexemes
  | .signRead inside _ => inside.lexemes
  | .nameRead inside name => inside.lexemes ++ [.name name.text]
  | .atomRead inside atom => inside.lexemes ++ atom.lexemes
  | .argumentDue inside call => inside.lexemes ++ call.lexemes
  | .argumentNamed inside call name => inside.lexemes ++ call.lexemes ++ [.name name.text]

/-- The sign that no number has followed yet. -/
def heldSign : Stage → List Token
  | .signRead _ sign => [sign]
  | _ => []

end Stage

namespace Reading

/-- The leaves of everything that has been read. -/
def lexemes (reading : Reading) : List Lexeme :=
  Tree.forestLexemes reading.finished.reverse ++ reading.stage.lexemes

/-- The tokens are those that the reading has been built from: they spell its leaves, and a sign
may be left over. -/
def SpelledBy (reading : Reading) (tokens : List Token) : Prop :=
  ∃ front, tokens = front ++ reading.stage.heldSign ∧ Spells reading.lexemes front ∧
    ∀ sign ∈ reading.stage.heldSign, sign.IsProper ∧ (sign.kind = .plus ∨ sign.kind = .minus)

section

variable {finished : List Tree} {stage : Stage} {inside : Inside}

theorem atom_begins_lexemes (begins : AtomBegins stage inside) :
    Reading.lexemes ⟨finished, stage⟩ = Tree.forestLexemes finished.reverse ++ inside.lexemes := by
  cases begins <;> simp [lexemes, Stage.lexemes, Head.lexemes]

theorem name_read_lexemes {name : Token} (read : NameRead stage inside name) :
    Reading.lexemes ⟨finished, stage⟩ =
      Tree.forestLexemes finished.reverse ++ inside.lexemes ++ [.name name.text] := by
  cases read <;> simp [lexemes, Stage.lexemes, Head.lexemes]

theorem atom_read_lexemes {atom : Tree} (read : AtomRead stage inside atom) :
    Reading.lexemes ⟨finished, stage⟩ =
      Tree.forestLexemes finished.reverse ++ inside.lexemes ++ atom.lexemes := by
  cases read with
  | whole => simp [lexemes, Stage.lexemes]
  | name read => simp [name_read_lexemes read]

theorem atom_begins_held (begins : AtomBegins stage inside) : stage.heldSign = [] := by
  cases begins <;> rfl

theorem name_read_held {name : Token} (read : NameRead stage inside name) :
    stage.heldSign = [] := by
  cases read <;> rfl

theorem atom_read_held {atom : Tree} (read : AtomRead stage inside atom) :
    stage.heldSign = [] := by
  cases read with
  | whole => rfl
  | name read => exact name_read_held read

end

theorem spelled_by_plain {reading next : Reading} {tokens : List Token} {token : Token}
    (spelled : reading.SpelledBy tokens) (before : reading.stage.heldSign = [])
    (added : next.lexemes = reading.lexemes ++ [.plain token.word])
    (after : next.stage.heldSign = []) : next.SpelledBy (tokens ++ [token]) := by
  obtain ⟨front, rfl, spelled, _⟩ := spelled
  refine ⟨front ++ [token], by simp [before, after], ?_, by simp [after]⟩
  rw [added]
  exact spelled.append (.single token)

theorem literal_lexemes {production : Production} {sign number : Token}
    (signed : sign.IsProper ∧ (sign.kind = .plus ∨ sign.kind = .minus))
    (leaf : NumberLeaf number.kind production) :
    (literal production sign number).lexemes = [.signed sign.word number.word] := by
  obtain ⟨proper, kind⟩ := signed
  have text : sign.kind = .plus ∧ sign.text = "+" ∨ sign.kind = .minus ∧ sign.text = "-" := by
    rcases kind with kind | kind
    · exact .inl ⟨kind, (Token.symbol_of_proper proper (by rw [kind]; rfl)).1⟩
    · exact .inr ⟨kind, (Token.symbol_of_proper proper (by rw [kind]; rfl)).1⟩
  have same : Lexeme.ofToken production (sign.text ++ number.text) =
      Lexeme.ofNumber number.kind (sign.text ++ number.text) := by
    generalize number.kind = numberKind at leaf
    cases leaf <;> rfl
  have read : Lexeme.ofNumber number.kind (sign.text ++ number.text) =
      .signed sign.word number.word := by
    rcases text with ⟨kind, text⟩ | ⟨kind, text⟩ <;>
      simp [Lexeme.ofNumber, Token.word, kind, text]
  rw [← read, ← same]
  simp [literal, Tree.leaf, Tree.lexemes, Tree.pieceLexemes]

theorem number_lexemes {production : Production} {number : Token} (proper : number.IsProper)
    (leaf : NumberLeaf number.kind production) :
    (Tree.ofToken production number).lexemes = [.plain number.word] := by
  have same : Lexeme.ofToken production number.text =
      Lexeme.ofNumber number.kind number.text := by
    generalize number.kind = kind at leaf
    cases leaf <;> rfl
  obtain ⟨first, rest, text, digit⟩ :
      ∃ first rest, number.text.toList = first :: rest ∧ Scan.isDigit first = true := by
    have described := proper.described
    generalize number.kind = kind at leaf described
    cases leaf with
    | int => exact Scan.first_of_digits described
    | num => exact Scan.first_of_real described
  rw [Tree.of_token_lexemes, same, Lexeme.of_unsigned_number text digit]
  rfl

/-- A token adds itself to the leaves; a sign does so together with the number after it. -/
theorem spelled_by_takes {reading next : Reading} {tokens : List Token} {token : Token}
    (takes : Takes reading token next) (proper : token.IsProper)
    (spelled : reading.SpelledBy tokens) : next.SpelledBy (tokens ++ [token]) := by
  have symbol : ∀ {kind : TokenKind} {text : String}, token.kind = kind →
      kind.symbol? = some text → token.text = text ∧ Lexeme.symbol text = .plain token.word := by
    intro kind text same symbol
    have found := Token.symbol_of_proper proper (by rw [same]; exact symbol)
    exact ⟨found.1, by rw [← found.2, found.1]⟩
  cases takes with
  | newline kind =>
      obtain ⟨text, word⟩ := symbol kind rfl
      refine spelled_by_plain spelled rfl ?_ rfl
      simp [lexemes, Tree.forestLexemes, Stage.lexemes, Lexeme.ofToken, text, word]
  | stop kind => exact absurd kind proper.inside
  | echo kind =>
      obtain ⟨text, word⟩ := symbol kind rfl
      refine spelled_by_plain spelled rfl ?_ rfl
      simp [lexemes, Stage.lexemes, Head.lexemes, text, word]
  | name kind =>
      refine spelled_by_plain spelled rfl ?_ rfl
      simp [lexemes, Stage.lexemes, Token.name_of_ident kind]
  | assign kind =>
      obtain ⟨text, word⟩ := symbol kind rfl
      refine spelled_by_plain spelled rfl ?_ rfl
      simp [lexemes, Stage.lexemes, Head.lexemes, word]
  | colon kind =>
      obtain ⟨text, word⟩ := symbol kind rfl
      refine spelled_by_plain spelled rfl ?_ rfl
      simp [lexemes, Stage.lexemes, word]
  | define kind =>
      obtain ⟨text, word⟩ := symbol kind rfl
      refine spelled_by_plain spelled rfl ?_ rfl
      simp [lexemes, Stage.lexemes, Head.lexemes, word]
  | declared kind =>
      refine spelled_by_plain spelled rfl ?_ rfl
      simp [lexemes, Stage.lexemes, Token.name_of_ident kind]
  | defineAs kind =>
      obtain ⟨text, word⟩ := symbol kind rfl
      refine spelled_by_plain spelled rfl ?_ rfl
      simp [lexemes, Stage.lexemes, Head.lexemes, word]
  | openSignature kind =>
      obtain ⟨text, word⟩ := symbol kind rfl
      refine spelled_by_plain spelled rfl ?_ rfl
      simp [lexemes, Stage.lexemes, OpenSignature.lexemes, text, word]
  | parameterName kind =>
      refine spelled_by_plain spelled rfl ?_ rfl
      simp [lexemes, Stage.lexemes, Token.name_of_ident kind]
  | parameterColon kind =>
      obtain ⟨text, word⟩ := symbol kind rfl
      refine spelled_by_plain spelled rfl ?_ rfl
      simp [lexemes, Stage.lexemes, word]
  | parameterKind kind =>
      refine spelled_by_plain spelled rfl ?_ rfl
      simp [lexemes, Stage.lexemes, Token.name_of_ident kind]
  | parameterComma kind =>
      obtain ⟨text, word⟩ := symbol kind rfl
      refine spelled_by_plain spelled rfl ?_ rfl
      simp [lexemes, Stage.lexemes, OpenSignature.lexemes, ListItem.lexemes, text, word]
  | lastParameter kind =>
      obtain ⟨text, word⟩ := symbol kind rfl
      refine spelled_by_plain spelled rfl ?_ rfl
      simp [lexemes, Stage.lexemes, OpenSignature.lexemes, ListItem.lexemes, text, word]
  | closeSignature kind =>
      obtain ⟨text, word⟩ := symbol kind rfl
      refine spelled_by_plain spelled rfl ?_ rfl
      simp [lexemes, Stage.lexemes, OpenSignature.lexemes, text, word]
  | defineCallable kind =>
      obtain ⟨text, word⟩ := symbol kind rfl
      refine spelled_by_plain spelled rfl ?_ rfl
      simp [lexemes, Stage.lexemes, Head.lexemes, word]
  | openGroup begins kind =>
      obtain ⟨text, word⟩ := symbol kind rfl
      refine spelled_by_plain spelled (atom_begins_held begins) ?_ rfl
      rw [atom_begins_lexemes begins]
      simp [lexemes, Stage.lexemes, Inside.enter, Inside.lexemes, Opening.lexemes,
        text, word]
  | number begins leaf =>
      refine spelled_by_plain spelled (atom_begins_held begins) ?_ rfl
      rw [atom_begins_lexemes begins]
      simp [lexemes, Stage.lexemes, number_lexemes proper leaf]
  | sign begins kind =>
      -- a sign is no leaf yet: it is held until the number after it comes
      obtain ⟨front, rfl, spelled, _⟩ := spelled
      refine ⟨front, by rw [atom_begins_held begins, List.append_nil]; rfl, ?_, ?_⟩
      · rw [atom_begins_lexemes begins] at spelled
        exact spelled
      · intro sign member
        rw [List.mem_singleton.mp member]
        exact ⟨proper, kind⟩
  | @signedNumber finished inside sign _ production adjacent leaf =>
      obtain ⟨front, rfl, spelled, signs⟩ := spelled
      refine ⟨front ++ [sign, token], by simp [Stage.heldSign], ?_, by simp [Stage.heldSign]⟩
      have read := literal_lexemes (signs sign (List.mem_singleton.mpr rfl)) leaf
      simp only [lexemes, Stage.lexemes, read, ← List.append_assoc]
      exact spelled.append (.signed rfl rfl adjacent .nil)
  | atomName kind =>
      refine spelled_by_plain spelled rfl ?_ rfl
      simp [lexemes, Stage.lexemes, Token.name_of_ident kind]
  | openCall read kind =>
      obtain ⟨text, word⟩ := symbol kind rfl
      refine spelled_by_plain spelled (name_read_held read) ?_ rfl
      rw [name_read_lexemes read]
      simp [lexemes, Stage.lexemes, OpenCall.lexemes, text, word]
  | argumentName kind =>
      refine spelled_by_plain spelled rfl ?_ rfl
      simp [lexemes, Stage.lexemes, Token.name_of_ident kind]
  | argumentEquals kind =>
      obtain ⟨text, word⟩ := symbol kind rfl
      refine spelled_by_plain spelled rfl ?_ rfl
      simp [lexemes, Stage.lexemes, Inside.enter, Inside.lexemes, Opening.lexemes, word]
  | closeCall kind distinct =>
      obtain ⟨text, word⟩ := symbol kind rfl
      refine spelled_by_plain spelled rfl ?_ rfl
      simp [lexemes, Stage.lexemes, text, word]
  | caret read kind =>
      obtain ⟨text, word⟩ := symbol kind rfl
      refine spelled_by_plain spelled (atom_read_held read) ?_ rfl
      rw [atom_read_lexemes read]
      simp [lexemes, Stage.lexemes, Inside.lexemes, word]
  | multiplicative read kind =>
      have word : Lexeme.symbol token.text = .plain token.word := by
        rcases kind with kind | kind <;> exact (Token.symbol_of_proper proper (by rw [kind]; rfl)).2
      refine spelled_by_plain spelled (atom_read_held read) ?_ rfl
      rw [atom_read_lexemes read]
      simp [lexemes, Stage.lexemes, Inside.lexemes, word]
  | additive read kind =>
      have word : Lexeme.symbol token.text = .plain token.word := by
        rcases kind with kind | kind <;> exact (Token.symbol_of_proper proper (by rw [kind]; rfl)).2
      refine spelled_by_plain spelled (atom_read_held read) ?_ rfl
      rw [atom_read_lexemes read]
      simp [lexemes, Stage.lexemes, Inside.lexemes, word]
  | endLine read kind =>
      obtain ⟨text, word⟩ := symbol kind rfl
      refine spelled_by_plain spelled (atom_read_held read) ?_ rfl
      rw [atom_read_lexemes read]
      simp [lexemes, Tree.forestLexemes, Stage.lexemes, Inside.lexemes, Lexeme.ofToken, text,
        word]
  | endProgram read kind => exact absurd kind proper.inside
  | closeGroup read kind =>
      obtain ⟨text, word⟩ := symbol kind rfl
      refine spelled_by_plain spelled (atom_read_held read) ?_ rfl
      rw [atom_read_lexemes read]
      simp [lexemes, Stage.lexemes, Inside.lexemes, Opening.lexemes, text, word]
  | argumentComma read kind =>
      obtain ⟨text, word⟩ := symbol kind rfl
      refine spelled_by_plain spelled (atom_read_held read) ?_ rfl
      rw [atom_read_lexemes read]
      simp [lexemes, Stage.lexemes, Inside.lexemes, Opening.lexemes, OpenCall.lexemes,
        ListItem.lexemes, text, word]
  | lastArgument read kind distinct =>
      obtain ⟨text, word⟩ := symbol kind rfl
      refine spelled_by_plain spelled (atom_read_held read) ?_ rfl
      rw [atom_read_lexemes read]
      simp [lexemes, Stage.lexemes, Inside.lexemes, Opening.lexemes, OpenCall.lexemes,
        ListItem.lexemes, text, word]

theorem start_spelled : start.SpelledBy [] := ⟨[], rfl, .nil, by simp [start, Stage.heldSign]⟩

theorem spelled_by_run {reading last : Reading} {before tokens : List Token}
    (ran : reading.run tokens = .ok last) (proper : ∀ token ∈ tokens, token.IsProper)
    (spelled : reading.SpelledBy before) : last.SpelledBy (before ++ tokens) := by
  induction tokens generalizing reading before with
  | nil =>
      cases ran
      simpa using spelled
  | cons token tokens induction =>
      obtain ⟨next, takes, rest⟩ := takes_of_run_cons ran
      have nextSpelled := spelled_by_takes takes (proper token (by simp)) spelled
      have all := induction rest (fun other member => proper other (by simp [member])) nextSpelled
      simpa using all

/-- The end of input is no leaf, and no statement is left under way before it. -/
theorem spelled_by_stop {reading last : Reading} {tokens : List Token} {stop : Token}
    (takes : Takes reading stop last) (kind : stop.kind = .eof)
    (spelled : reading.SpelledBy tokens) :
    Spells (Tree.forestLexemes last.finished.reverse) tokens := by
  obtain ⟨front, rfl, spelled, _⟩ := spelled
  cases takes with
  | stop => simpa [lexemes, Stage.lexemes, Stage.heldSign] using spelled
  | endProgram read =>
      rw [atom_read_lexemes read] at spelled
      rw [atom_read_held read, List.append_nil]
      simpa [Tree.forestLexemes, Inside.lexemes] using spelled
  | number _ leaf => rw [kind] at leaf; cases leaf
  | signedNumber _ leaf => rw [kind] at leaf; cases leaf
  | _ => simp_all

end Reading

end Reckon
