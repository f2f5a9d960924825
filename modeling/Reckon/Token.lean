import Reckon.Source.Span

/-!
Tokens. A token carries its text and its location, so that whoever reads tokens needs the source
no more.
-/

namespace Reckon

inductive TokenKind where
  | int
  | num
  | ident
  | echo
  | plus
  | minus
  | star
  | slash
  | caret
  | leftParen
  | rightParen
  | colon
  | equals
  | comma
  | newline
  | eof
deriving DecidableEq, Inhabited, Repr

namespace TokenKind

/-- The text of a kind of token that has only one. -/
def symbol? : TokenKind → Option String
  | .echo => some "echo"
  | .plus => some "+"
  | .minus => some "-"
  | .star => some "*"
  | .slash => some "/"
  | .caret => some "^"
  | .leftParen => some "("
  | .rightParen => some ")"
  | .colon => some ":"
  | .equals => some "="
  | .comma => some ","
  | .newline => some "\n"
  | .int | .num | .ident | .eof => none

/-- The kind as messages name it. -/
def description : TokenKind → String
  | .int => "integer literal"
  | .num => "number literal"
  | .ident => "identifier"
  | .echo => "`echo`"
  | .plus => "`+`"
  | .minus => "`-`"
  | .star => "`*`"
  | .slash => "`/`"
  | .caret => "`^`"
  | .leftParen => "`(`"
  | .rightParen => "`)`"
  | .colon => "`:`"
  | .equals => "`=`"
  | .comma => "`,`"
  | .newline => "newline"
  | .eof => "end of input"

/-- Literals are read without a sign. -/
def isNumeric : TokenKind → Bool
  | .int | .num => true
  | _ => false

def isAdditive : TokenKind → Bool
  | .plus | .minus => true
  | _ => false

def isMultiplicative : TokenKind → Bool
  | .star | .slash => true
  | _ => false

end TokenKind

structure Token where
  kind : TokenKind
  text : String
  location : Location
deriving DecidableEq, Inhabited, Repr

namespace Token

def span (token : Token) : Span := token.location.span

/-- Nothing stands between the two tokens. -/
def isAdjacent (token next : Token) : Bool := token.span.stop == next.span.start

end Token

end Reckon
