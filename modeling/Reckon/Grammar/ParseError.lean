import Reckon.Grammar.Expectation
import Reckon.Report
import Reckon.Token.Scan

/-! Errors of reading trees: where the grammar was left, what was found and what was expected. -/

namespace Reckon

structure ParseError where
  code : ErrorCode
  message : String
  location : Location
  expected : Expectation
  /-- Another place that explains the error, such as an opening parenthesis. -/
  related? : Option Span
  help : List String
deriving DecidableEq, Repr

namespace ParseError

def plain (code : ErrorCode) (message : String) (location : Location) (expected : Expectation) :
    ParseError :=
  ⟨code, message, location, expected, none, []⟩

def withRelated (error : ParseError) (span : Span) : ParseError :=
  { error with related? := some span }

def withHelp (error : ParseError) (help : String) : ParseError :=
  { error with help := error.help ++ [help] }

def located (error : ParseError) (lines : Lines) : ParseError :=
  { error with location := ⟨error.location.span, lines.position error.location.span.start⟩ }

theorem located_eq_self {error : ParseError} {lines : Lines}
    (same : lines.position error.location.span.start = error.location.position) :
    error.located lines = error := by
  rw [located, same]

def codeOf : Expectation → ErrorCode
  | .production .atom | .production .expr => .expressionDue
  | .production .identifier => .identifierDue
  | .typeOrEquals => .typeDue
  | .endOfStatement => .statementEndDue
  | _ => .unexpectedToken

def unexpected (expected : Expectation) (found : TokenKind) (location : Location) : ParseError :=
  plain (codeOf expected) s!"expected {expected.description}, found {found.description}" location
    expected

def unclosedParen (opening : Span) (found : TokenKind) (location : Location) : ParseError :=
  ((plain .unclosedParen s!"unmatched `(`, found {found.description}" location
    (.token .rightParen)).withRelated opening).withHelp "add a `)` to close the group"

def detachedSign (sign : TokenKind) (location : Location) : ParseError :=
  (plain .detachedSign s!"expected atom, found {sign.description}" location
    (.production .atom)).withHelp
    "a sign must be written directly before a number, as in `-5`"

def repeatedArgument (name : String) (location : Location) : ParseError :=
  plain .repeatedArgument s!"argument `{name}` is given more than once" location .distinctArgument

def ofScanError (error : ScanError) : ParseError :=
  let code := match error with
    | .unexpectedChar .. => ErrorCode.unexpectedChar
    | .sourceTooLarge _ => ErrorCode.sourceTooLarge
  plain code error.message error.location .validToken

def text (error : ParseError) : String := s!"{error.message} at {error.location.position.text}"

def report (error : ParseError) : Report where
  code := error.code
  message := error.message
  labels :=
    ⟨error.location.span, s!"expected {error.expected.description}", true⟩ ::
      (error.related?.map fun span => ⟨span, "opened here", false⟩).toList
  notes := error.help

end ParseError

end Reckon
