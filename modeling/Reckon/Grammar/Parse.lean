import Reckon.Grammar.ParseError
import Reckon.Grammar.Unfinished

/-!
Reading the trees of a program, one token after the other. What has been read is kept as a stage
of the statement under way, whose opened constructs stand in a list and not in nested calls, so
that nesting costs no stack.

    program    = (statement? newline)* statement?
    statement  = "echo" expr | name ":" name "(" parameters ")" "=" expr
               | name ":" name? "=" expr | name "=" expr | expr
    expr       = term (("+" | "-") term)*
    term       = factor (("*" | "/") factor)*
    factor     = atom ("^" factor)?
    atom       = name "(" arguments ")" | sign? number | name | "(" expr ")"
    parameters = (name ":" name ",")* (name ":" name ","?)?
    arguments  = (name "=" expr ",")* (name "=" expr ","?)?
-/

namespace Reckon

/-- The trees of the statements and newlines behind, the latest first, and the stage of the
statement under way. -/
structure Reading where
  finished : List Tree
  stage : Stage

namespace Reading

def start : Reading := ⟨[], .start⟩

def next (reading : Reading) (stage : Stage) : Except ParseError Reading :=
  .ok { reading with stage := stage }

def refuse (expected : Expectation) (token : Token) : Except ParseError Reading :=
  .error (.unexpected expected token.kind token.location)

def lineEnd (finished : List Tree) (token : Token) : Except ParseError Reading :=
  match token.kind with
  | .newline => .ok ⟨.ofToken .newline token :: finished, .start⟩
  | .eof => .ok ⟨finished, .start⟩
  | _ => refuse .endOfStatement token

/-- A call ends with a parenthesis; an argument given twice is found before that is missed. -/
def closeCall (reading : Reading) (inside : Inside) (call : OpenCall) (token : Token) :
    Except ParseError Reading :=
  match call.repeated? with
  | some name => .error (.repeatedArgument name.text name.location)
  | none =>
      if token.kind = .rightParen then reading.next (.atomRead inside (call.finish token))
      else .error (.unclosedParen call.opening.span token.kind token.location)

/-- An expression ends before a token that does not continue it. What stands around the
expression decides what the token means. -/
def closeExpr (reading : Reading) (head : Head) (value : Tree) (token : Token) :
    List Opening → Except ParseError Reading
  | [] => lineEnd (head.finish value :: reading.finished) token
  | .group opening around :: openings =>
      if token.kind = .rightParen then
        reading.next (.atomRead ⟨head, openings, around⟩ (.group opening value token))
      else .error (.unclosedParen opening.span token.kind token.location)
  | .argument call name around :: openings =>
      if token.kind = .comma then
        reading.next (.argumentDue ⟨head, openings, around⟩
          { call with arguments := ⟨name, value, some token⟩ :: call.arguments })
      else
        reading.closeCall ⟨head, openings, around⟩
          { call with arguments := ⟨name, value, none⟩ :: call.arguments } token

def afterAtom (reading : Reading) (inside : Inside) (atom : Tree) (token : Token) :
    Except ParseError Reading :=
  match token.kind with
  | .caret => reading.next (.atomDue { inside with chain := inside.chain.raise atom })
  | .star | .slash =>
      reading.next (.atomDue { inside with chain := inside.chain.multiply atom token })
  | .plus | .minus =>
      reading.next (.atomDue { inside with chain := inside.chain.add atom token })
  | _ => reading.closeExpr inside.head (inside.chain.finish atom) token inside.openings

def literal (production : Production) (sign number : Token) : Tree :=
  .atomOf (.leaf production (sign.text ++ number.text) (sign.location.through number.location))

/-- A sign is read together with the number directly after it. -/
def afterSign (reading : Reading) (inside : Inside) (sign token : Token) :
    Except ParseError Reading :=
  if sign.isAdjacent token then
    match token.kind with
    | .int => reading.next (.atomRead inside (literal .intLiteral sign token))
    | .num => reading.next (.atomRead inside (literal .numLiteral sign token))
    | _ => .error (.detachedSign sign.kind sign.location)
  else .error (.detachedSign sign.kind sign.location)

def beginAtom (reading : Reading) (inside : Inside) (token : Token) : Except ParseError Reading :=
  match token.kind with
  | .leftParen => reading.next (.atomDue (inside.enter (.group token)))
  | .ident => reading.next (.nameRead inside token)
  | .int => reading.next (.atomRead inside (.atomOf (.ofToken .intLiteral token)))
  | .num => reading.next (.atomRead inside (.atomOf (.ofToken .numLiteral token)))
  | .plus | .minus => reading.next (.signRead inside token)
  | _ => refuse (.production .atom) token

def afterName (reading : Reading) (inside : Inside) (name token : Token) :
    Except ParseError Reading :=
  match token.kind with
  | .leftParen => reading.next (.argumentDue inside ⟨name, token, []⟩)
  | _ => reading.afterAtom inside (.atomOf (.ofToken .identifier name)) token

def beginStatement (reading : Reading) (token : Token) : Except ParseError Reading :=
  match token.kind with
  | .newline | .eof => lineEnd reading.finished token
  | .echo => reading.next (.atomDue (.start (.echo token)))
  | .ident => reading.next (.named token)
  | _ => reading.beginAtom (.start .bare) token

def closeSignature (reading : Reading) (signature : OpenSignature) (token : Token) :
    Except ParseError Reading :=
  if token.kind = .rightParen then
    reading.next (.signatureRead signature.name (signature.finish token))
  else .error (.unclosedParen signature.opening.span token.kind token.location)

/-- Takes the next token into the statement under way, or tells why it cannot stand there. -/
def step (reading : Reading) (token : Token) : Except ParseError Reading :=
  match reading.stage with
  | .start => reading.beginStatement token
  | .named name =>
      match token.kind with
      | .colon => reading.next (.definition name)
      | .equals => reading.next (.atomDue (.start (.assign name)))
      | _ => reading.afterName (.start .bare) name token
  | .definition name =>
      match token.kind with
      | .equals => reading.next (.atomDue (.start (.define name none)))
      | .ident => reading.next (.kindRead name token)
      | _ => refuse .typeOrEquals token
  | .kindRead name kind =>
      match token.kind with
      | .equals => reading.next (.atomDue (.start (.define name (some kind))))
      | .leftParen => reading.next (.parameterDue ⟨name, kind, token, []⟩)
      | _ => refuse .equalsOrParameters token
  | .parameterDue signature =>
      match token.kind with
      | .rightParen => reading.closeSignature signature token
      | .ident => reading.next (.parameterNamed signature token)
      | _ => refuse (.production .identifier) token
  | .parameterNamed signature name =>
      match token.kind with
      | .colon => reading.next (.parameterKindDue signature name)
      | _ => refuse (.token .colon) token
  | .parameterKindDue signature name =>
      match token.kind with
      | .ident => reading.next (.parameterRead signature name token)
      | _ => refuse (.production .identifier) token
  | .parameterRead signature name kind =>
      let item (comma? : Option Token) : ListItem := ⟨name, .ofToken .identifier kind, comma?⟩
      match token.kind with
      | .comma =>
          reading.next (.parameterDue
            { signature with parameters := item (some token) :: signature.parameters })
      | _ =>
          reading.closeSignature
            { signature with parameters := item none :: signature.parameters } token
  | .signatureRead name signature =>
      match token.kind with
      | .equals => reading.next (.atomDue (.start (.callable name signature)))
      | _ => refuse (.token .equals) token
  | .atomDue inside => reading.beginAtom inside token
  | .signRead inside sign => reading.afterSign inside sign token
  | .nameRead inside name => reading.afterName inside name token
  | .atomRead inside atom => reading.afterAtom inside atom token
  | .argumentDue inside call =>
      match token.kind with
      | .rightParen => reading.closeCall inside call token
      | .ident => reading.next (.argumentNamed inside call token)
      | _ => refuse (.production .identifier) token
  | .argumentNamed inside call name =>
      match token.kind with
      | .equals => reading.next (.atomDue (inside.enter (.argument call name)))
      | _ => refuse (.token .equals) token

def run (reading : Reading) (tokens : List Token) : Except ParseError Reading :=
  tokens.foldlM step reading

theorem run_append (reading : Reading) (first second : List Token) :
    reading.run (first ++ second) = reading.run first >>= (·.run second) :=
  List.foldlM_append

end Reading

def parseTokens (tokens : List Token) : Except ParseError (List Tree) :=
  (Reading.start.run tokens).map (·.finished.reverse)

/-- The trees of a source text. An error is given the position that its span has in the text. -/
def parse (source : String) : Except ParseError (List Tree) :=
  let read := match tokens source with
    | .ok tokens => parseTokens tokens
    | .error error => .error (.ofScanError error)
  read.mapError (·.located (.ofString source))

section

variable {source : String} {scanned : List Token} {forest : List Tree}

theorem parse_of_tokens (scans : tokens source = .ok scanned) :
    parse source = (parseTokens scanned).mapError (·.located (.ofString source)) := by
  rw [parse, scans]

theorem parse_of_scan_error {error : ScanError} (fails : tokens source = .error error) :
    parse source = .error ((ParseError.ofScanError error).located (.ofString source)) := by
  rw [parse, fails]
  rfl

theorem parse_eq_ok_iff : parse source = .ok forest ↔
    ∃ scanned, tokens source = .ok scanned ∧ parseTokens scanned = .ok forest := by
  cases scans : tokens source with
  | error error => simp [parse_of_scan_error scans]
  | ok scanned =>
      rw [parse_of_tokens scans]
      cases read : parseTokens scanned with
      | error error =>
          constructor
          · intro same
            cases same
          · rintro ⟨_, ⟨⟩, same⟩
            cases read.symm.trans same
      | ok trees =>
          constructor
          · intro same
            cases same
            exact ⟨scanned, rfl, read⟩
          · rintro ⟨_, ⟨⟩, same⟩
            cases read.symm.trans same
            rfl

end

end Reckon
