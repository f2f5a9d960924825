import Reckon.Source.Lines
import Reckon.Text.Blank

/-!
Reports of failures: a code, a message, labelled places in the source and notes. A report is shown
as a heading, a block with the underlined source line for every label, and a line for every note.
-/

namespace Reckon

inductive ErrorCode where
  | unexpectedChar
  | sourceTooLarge
  | unexpectedToken
  | expressionDue
  | unclosedParen
  | identifierDue
  | typeDue
  | repeatedArgument
  | statementEndDue
  | detachedSign
  | undefinedVariable
  | undefinedFunction
  | unknownType
  | incompatibleValue
  | argumentMismatch
  | duplicateParameter
  | malformedTree
  | divisionByZero
  | integerOverflow
  | recursionLimit
  | invalidLiteral
deriving DecidableEq, Repr

namespace ErrorCode

/-- The first digit tells the stage: splitting into tokens, reading trees, evaluation. -/
def text : ErrorCode → String
  | .unexpectedChar => "E0001"
  | .sourceTooLarge => "E0002"
  | .unexpectedToken => "E1001"
  | .expressionDue => "E1002"
  | .unclosedParen => "E1003"
  | .identifierDue => "E1004"
  | .typeDue => "E1005"
  | .repeatedArgument => "E1006"
  | .statementEndDue => "E1007"
  | .detachedSign => "E1008"
  | .undefinedVariable => "E2001"
  | .undefinedFunction => "E2002"
  | .unknownType => "E2003"
  | .incompatibleValue => "E2004"
  | .argumentMismatch => "E2005"
  | .duplicateParameter => "E2006"
  | .malformedTree => "E2007"
  | .divisionByZero => "E2008"
  | .integerOverflow => "E2009"
  | .recursionLimit => "E2010"
  | .invalidLiteral => "E2011"

def all : List ErrorCode :=
  [.unexpectedChar, .sourceTooLarge, .unexpectedToken, .expressionDue, .unclosedParen,
    .identifierDue, .typeDue, .repeatedArgument, .statementEndDue, .detachedSign,
    .undefinedVariable, .undefinedFunction, .unknownType, .incompatibleValue, .argumentMismatch,
    .duplicateParameter, .malformedTree, .divisionByZero, .integerOverflow, .recursionLimit,
    .invalidLiteral]

def ofText? (text : String) : Option ErrorCode := all.find? (·.text == text)

theorem of_text_text (code : ErrorCode) : ofText? code.text = some code := by
  cases code <;> decide

end ErrorCode

structure Label where
  span : Span
  message : String
  isPrimary : Bool
deriving DecidableEq, Repr

namespace Label

def marker (label : Label) : Char := if label.isPrimary then '^' else '-'

end Label

structure Report where
  code : ErrorCode
  message : String
  labels : List Label
  notes : List String
deriving DecidableEq, Repr

namespace Report

def heading (report : Report) : String := s!"error[{report.code.text}]: {report.message}"

def primarySpan? (report : Report) : Option Span :=
  (report.labels.find? (·.isPrimary)).map (·.span)

/-- How many characters a label underlines: those of its text up to the first newline, and one
where there are none. -/
def underlineWidth (lines : Lines) (label : Label) : Nat :=
  match Text.slice? label.span.start label.span.stop lines.text with
  | some text => max 1 (text.takeWhile (· != '\n')).length
  | none => 1

/-- The four lines that show a label: its position, an empty gutter, the source line behind its
number, and the markers under the labelled text with the message after them. -/
def block (lines : Lines) (label : Label) : List (List Char) :=
  let position := lines.position label.span.start
  let lineText := (lines.lineText? position.line).getD []
  let gutter := (toString position.line).toList
  let pad := List.replicate gutter.length ' '
  let bar := " |".toList
  let markers := List.replicate (position.column - 1) ' ' ++
    List.replicate (underlineWidth lines label) label.marker
  [pad ++ "--> ".toList ++ position.text.toList,
    pad ++ bar,
    gutter ++ bar ++ [' '] ++ lineText,
    Text.trimEnd (pad ++ bar ++ [' '] ++ markers ++ [' '] ++ label.message.toList)]

def noteLine (note : String) : List Char := " = note: ".toList ++ note.toList

def lines (report : Report) (source : Lines) : List (List Char) :=
  report.heading.toList :: report.labels.flatMap (block source) ++ report.notes.map noteLine

/-- The report with the source lines it points at, every line ended by a newline. -/
def render (report : Report) (source : String) : String :=
  String.ofList ((report.lines (.ofString source)).flatMap (· ++ ['\n']))

end Report

end Reckon
