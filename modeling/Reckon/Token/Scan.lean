import Reckon.Token
import Reckon.Text.Quoted

/-!
Splitting a text into tokens. At each place the longest token, comment or run of blanks is taken;
comments and blanks leave nothing behind. The list of tokens ends with one for the end of input.
-/

namespace Reckon

inductive ScanError where
  | unexpectedChar (char : Char) (location : Location)
  | sourceTooLarge (error : SpanError)
deriving DecidableEq, Repr

namespace ScanError

def message : ScanError → String
  | .unexpectedChar char _ => s!"unexpected character {Text.quotedChar char}"
  | .sourceTooLarge error => s!"source too large: {error.message}"

/-- The offending text, or a placeholder where no span can hold it. -/
def location : ScanError → Location
  | .unexpectedChar _ location => location
  | .sourceTooLarge _ => .unknown

end ScanError

namespace Scan

def isBlank (char : Char) : Bool := char == ' ' || char == '\t' || char == '\r'

def isDigit (char : Char) : Bool := '0' ≤ char && char ≤ '9'

def startsName (char : Char) : Bool :=
  char == '_' || ('a' ≤ char && char ≤ 'z') || ('A' ≤ char && char ≤ 'Z')

def continuesName (char : Char) : Bool := startsName char || isDigit char

def symbol? : Char → Option TokenKind
  | '\n' => some .newline
  | '+' => some .plus
  | '-' => some .minus
  | '*' => some .star
  | '/' => some .slash
  | '^' => some .caret
  | '(' => some .leftParen
  | ')' => some .rightParen
  | ':' => some .colon
  | '=' => some .equals
  | ',' => some .comma
  | _ => none

def runLength (belongs : Char → Bool) (chars : List Char) : Nat := (chars.takeWhile belongs).length

/-- The end of a block comment: the number of characters through the closing sign, added to those
already counted, or without one the number of them that belong to the comment. -/
def commentEnd (counted : Nat) : List Char → Except Nat Nat
  | [] => .error counted
  | '#' :: rest =>
      match rest with
      | [] => .error counted
      | '#' :: _ => .ok (counted + 2)
      | _ :: _ => commentEnd (counted + 1) rest
  | _ :: rest => commentEnd (counted + 1) rest

def exponentLength : List Char → Nat
  | [] => 0
  | char :: rest =>
      if char = '+' ∨ char = '-' then
        match runLength isDigit rest with
        | 0 => 0
        | digits + 1 => digits + 2
      else runLength isDigit (char :: rest)

/-- The kind of a number whose integer digits have been read, and the characters after them that
still belong to it: a point with any digits, or a complete exponent, makes it real. -/
def numberTail : List Char → TokenKind × Nat
  | '.' :: rest => (.num, 1 + runLength isDigit rest)
  | char :: rest =>
      if char = 'e' ∨ char = 'E' then
        match exponentLength rest with
        | 0 => (.int, 0)
        | length + 1 => (.num, length + 2)
      else (.int, 0)
  | [] => (.int, 0)

/-- What a text begins with: a token of some kind or a gap, together with the number of
characters after the first that belong to it. Where neither begins, the number of characters after
the first that are to blame. -/
def leading (char : Char) (rest : List Char) : Except Nat (Option TokenKind × Nat) :=
  if isBlank char then .ok (none, runLength isBlank rest)
  else if char = '#' then
    match rest with
    | '#' :: body => (commentEnd 1 body).map fun length => (none, length)
    | _ => .ok (none, runLength (· != '\n') rest)
  else if isDigit char then
    let digits := runLength isDigit rest
    let (kind, length) := numberTail (rest.drop digits)
    .ok (some kind, digits + length)
  else if startsName char then
    let length := runLength continuesName rest
    let isEcho := char :: rest.take length == ['e', 'c', 'h', 'o']
    .ok (some (if isEcho then .echo else .ident), length)
  else match symbol? char with
    | some kind => .ok (some kind, 0)
    | none => .error 0

/-- The tokens of a text in order, after those found before it, the latest of them first. The
place is where the next token or gap begins; so many characters still belong to the one before.
Only a run of blanks may reach further than spans can, and only if the text does not. -/
def tokensFrom (place : Place) (found : List Token) :
    Nat → List Char → Except ScanError (List Token)
  | _, [] =>
      if Span.maxOffset < place.offset then .error (.sourceTooLarge (.endTooLarge place.offset))
      else .ok (⟨.eof, "", place.upTo place⟩ :: found).reverse
  | rest + 1, _ :: chars => tokensFrom place found rest chars
  | 0, char :: chars =>
      match leading char chars with
      | .error length =>
          match place.upTo? (place.afterAll (char :: chars.take length)) with
          | .error error => .error (.sourceTooLarge error)
          | .ok location => .error (.unexpectedChar char location)
      | .ok (kind?, length) =>
          let text := char :: chars.take length
          let stop := place.afterAll text
          match kind?, place.upTo? stop with
          | some kind, .ok location =>
              tokensFrom stop (⟨kind, String.ofList text, location⟩ :: found) length chars
          | none, .ok _ => tokensFrom stop found length chars
          | kind?, .error error =>
              if kind?.isNone && isBlank char then tokensFrom stop found length chars
              else .error (.sourceTooLarge error)

end Scan

def tokens (source : String) : Except ScanError (List Token) :=
  Scan.tokensFrom .start [] 0 source.toList

end Reckon
