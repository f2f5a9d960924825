import Reckon.Proofs.Tree.Shape

/-!
What trees are spelled with. The leaves of a tree, read from left to right, are words and signed
numbers; a signed number is a token for the sign and, directly after it, one for the number.
-/

namespace Reckon

/-- What a token says, wherever it stands. -/
structure Word where
  kind : TokenKind
  text : String
deriving DecidableEq

def Token.word (token : Token) : Word := ⟨token.kind, token.text⟩

namespace Word

/-- The word of a sign or keyword. No other text has a word that stands inside a program. -/
def ofSymbol (text : String) : Word :=
  match text with
  | "echo" => ⟨.echo, text⟩
  | "+" => ⟨.plus, text⟩
  | "-" => ⟨.minus, text⟩
  | "*" => ⟨.star, text⟩
  | "/" => ⟨.slash, text⟩
  | "^" => ⟨.caret, text⟩
  | "(" => ⟨.leftParen, text⟩
  | ")" => ⟨.rightParen, text⟩
  | ":" => ⟨.colon, text⟩
  | "=" => ⟨.equals, text⟩
  | "," => ⟨.comma, text⟩
  | "\n" => ⟨.newline, text⟩
  | _ => ⟨.eof, text⟩

theorem of_symbol_eq {kind : TokenKind} {text : String} (symbol : kind.symbol? = some text) :
    ofSymbol text = ⟨kind, text⟩ := by
  cases kind <;> cases symbol <;> rfl

@[simp] theorem of_symbol_text (text : String) : (ofSymbol text).text = text := by
  unfold ofSymbol
  split <;> rfl

end Word

/-- A leaf of a tree: one token, or a sign and a number directly after it. -/
inductive Lexeme where
  | plain (word : Word)
  | signed (sign number : Word)
deriving DecidableEq

namespace Lexeme

def symbol (text : String) : Lexeme := .plain (.ofSymbol text)

def name (text : String) : Lexeme := .plain ⟨.ident, text⟩

/-- The leaf of a number, whose text may begin with a sign. -/
def ofNumber (kind : TokenKind) (text : String) : Lexeme :=
  match text.toList with
  | '+' :: digits => .signed ⟨.plus, "+"⟩ ⟨kind, String.ofList digits⟩
  | '-' :: digits => .signed ⟨.minus, "-"⟩ ⟨kind, String.ofList digits⟩
  | _ => .plain ⟨kind, text⟩

/-- The leaf that a token is in a tree of the production. -/
def ofToken (production : Production) (text : String) : Lexeme :=
  match production with
  | .intLiteral => ofNumber .int text
  | .numLiteral => ofNumber .num text
  | .identifier => .name text
  | _ => .symbol text

theorem of_unsigned_number {kind : TokenKind} {text : String} {first : Char} {rest : List Char}
    (same : text.toList = first :: rest) (digit : Scan.isDigit first = true) :
    ofNumber kind text = .plain ⟨kind, text⟩ := by
  unfold ofNumber
  rw [same]
  split
  · next plus =>
      cases plus
      exact absurd digit (by decide)
  · next minus =>
      cases minus
      exact absurd digit (by decide)
  · rfl

@[simp] theorem of_token_identifier (text : String) : ofToken .identifier text = .name text := rfl

end Lexeme

namespace Token

theorem symbol_of_proper {token : Token} {text : String} (proper : token.IsProper)
    (symbol : token.kind.symbol? = some text) :
    token.text = text ∧ Lexeme.symbol token.text = .plain token.word := by
  have same : token.text = text := by
    have described := proper.described
    generalize token.kind = kind at symbol described
    cases kind <;> cases symbol <;> exact (Option.some.inj described).symm
  exact ⟨same, by rw [Lexeme.symbol, same, Word.of_symbol_eq symbol, word, same]⟩

theorem name_of_ident {token : Token} (kind : token.kind = .ident) :
    Lexeme.name token.text = .plain token.word := by
  rw [Lexeme.name, word, kind]

end Token

/-- The tokens are those of the leaves, in order. -/
inductive Spells : List Lexeme → List Token → Prop where
  | nil : Spells [] []
  | plain {word : Word} {token : Token} {lexemes : List Lexeme} {tokens : List Token}
      (same : token.word = word) (rest : Spells lexemes tokens) :
      Spells (.plain word :: lexemes) (token :: tokens)
  | signed {signWord numberWord : Word} {sign number : Token} {lexemes : List Lexeme}
      {tokens : List Token} (signSame : sign.word = signWord)
      (numberSame : number.word = numberWord)
      (adjacent : sign.isAdjacent number = true) (rest : Spells lexemes tokens) :
      Spells (.signed signWord numberWord :: lexemes) (sign :: number :: tokens)

namespace Spells

theorem append {first second : List Lexeme} {tokens others : List Token}
    (spelled : Spells first tokens) (then_ : Spells second others) :
    Spells (first ++ second) (tokens ++ others) := by
  induction spelled with
  | nil => exact then_
  | plain same _ induction => exact .plain same induction
  | signed signSame numberSame adjacent _ induction =>
      exact .signed signSame numberSame adjacent induction

theorem split {first second : List Lexeme} {tokens : List Token}
    (spelled : Spells (first ++ second) tokens) :
    ∃ front back, tokens = front ++ back ∧ Spells first front ∧ Spells second back := by
  induction first generalizing tokens with
  | nil => exact ⟨[], tokens, rfl, .nil, spelled⟩
  | cons lexeme first induction =>
      cases spelled with
      | plain same rest =>
          obtain ⟨front, back, rfl, before, after⟩ := induction rest
          exact ⟨_ :: front, back, rfl, .plain same before, after⟩
      | signed signSame numberSame adjacent rest =>
          obtain ⟨front, back, rfl, before, after⟩ := induction rest
          exact ⟨_ :: _ :: front, back, rfl, .signed signSame numberSame adjacent before, after⟩

theorem eq_nil {tokens : List Token} (spelled : Spells [] tokens) : tokens = [] := by
  cases spelled
  rfl

theorem uncons {word : Word} {lexemes : List Lexeme} {tokens : List Token}
    (spelled : Spells (.plain word :: lexemes) tokens) :
    ∃ token rest, tokens = token :: rest ∧ token.kind = word.kind ∧ token.text = word.text ∧
      Spells lexemes rest := by
  cases spelled with
  | plain same rest => exact ⟨_, _, rfl, congrArg Word.kind same, congrArg Word.text same, rest⟩

theorem single (token : Token) : Spells [.plain token.word] [token] := .plain rfl .nil

end Spells

namespace Tree

mutual

/-- The leaves of a tree from left to right. -/
def lexemes : Tree → List Lexeme
  | .node production pieces _ => pieceLexemes production pieces
termination_by structural tree => tree

/-- The leaves of pieces of a tree of the production. -/
def pieceLexemes (production : Production) : List (Piece Tree) → List Lexeme
  | [] => []
  | .token text :: rest => .ofToken production text :: pieceLexemes production rest
  | .tree tree :: rest => lexemes tree ++ pieceLexemes production rest
termination_by structural pieces => pieces

end

@[simp] theorem piece_lexemes_append (production : Production) (first second : List (Piece Tree)) :
    pieceLexemes production (first ++ second) =
      pieceLexemes production first ++ pieceLexemes production second := by
  induction first with
  | nil => rfl
  | cons piece first induction =>
      cases piece <;> simp only [List.cons_append, pieceLexemes, induction, List.append_assoc]

def forestLexemes (forest : List Tree) : List Lexeme := forest.flatMap lexemes

end Tree

end Reckon
