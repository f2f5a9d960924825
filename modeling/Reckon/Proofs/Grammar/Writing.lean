import Reckon.Proofs.Grammar.Completeness
import Reckon.Proofs.Grammar.Positions
import Reckon.Proofs.Token.Spacing

/-!
Programs as texts. The leaves of trees that follow the table are words of tokens, so that any
program can be written with blanks between its leaves, and is read again from what was written.
-/

namespace Reckon

namespace Lexeme

theorem symbol_proper (kind : TokenKind) {text : String} (symbol : kind.symbol? = some text) :
    (Lexeme.symbol text).IsProper := by
  rw [Lexeme.symbol, Word.of_symbol_eq symbol]
  refine .plain ?_ ?_
  · rintro rfl
    cases symbol
  · cases kind <;> first | exact symbol | cases symbol

theorem name_proper {text : String} (named : Scan.IsName text) : (Lexeme.name text).IsProper :=
  .plain (by simp) named

theorem number_proper {kind : TokenKind} {text : String} {unsigned : List Char → Prop}
    (numeric : kind = .int ∨ kind = .num)
    (describes : ∀ text : String, unsigned text.toList → kind.Describes text)
    (digit : ∀ {chars}, unsigned chars → ∃ first rest, chars = first :: rest ∧
      Scan.isDigit first = true)
    (read : Shape.IsSigned unsigned text) : (Lexeme.ofNumber kind text).IsProper := by
  obtain ⟨sign, digits, chars, signed, unsignedDigits⟩ := read
  have described : kind.Describes (String.ofList digits) :=
    describes _ (by rw [String.toList_ofList]; exact unsignedDigits)
  rcases signed with rfl | rfl | rfl
  · obtain ⟨first, rest, rfl, isDigit⟩ := digit unsignedDigits
    rw [of_unsigned_number chars isDigit]
    refine .plain (by rcases numeric with rfl | rfl <;> simp) (describes _ ?_)
    rw [chars]
    exact unsignedDigits
  · rw [ofNumber, chars]
    exact .signed (.inl rfl) rfl numeric described
  · rw [ofNumber, chars]
    exact .signed (.inr rfl) rfl numeric described

theorem of_symbols_proper {text : String} (known : text ∈
    ["echo", "+", "-", "*", "/", "^", "(", ")", ":", "=", ",", "\n"]) :
    (Lexeme.symbol text).IsProper := by
  simp only [List.mem_cons, List.not_mem_nil, or_false] at known
  rcases known with rfl | rfl | rfl | rfl | rfl | rfl | rfl | rfl | rfl | rfl | rfl | rfl
  · exact symbol_proper .echo rfl
  · exact symbol_proper .plus rfl
  · exact symbol_proper .minus rfl
  · exact symbol_proper .star rfl
  · exact symbol_proper .slash rfl
  · exact symbol_proper .caret rfl
  · exact symbol_proper .leftParen rfl
  · exact symbol_proper .rightParen rfl
  · exact symbol_proper .colon rfl
  · exact symbol_proper .equals rfl
  · exact symbol_proper .comma rfl
  · exact symbol_proper .newline rfl

/-- The leaf of a number is written as the number is. -/
theorem of_number_text (kind : TokenKind) (text : String) : (ofNumber kind text).text = text := by
  have whole : ∀ {sign : Char} {digits : List Char}, text.toList = sign :: digits →
      String.ofList [sign] ++ String.ofList digits = text := by
    intro sign digits same
    rw [← String.ofList_append, List.singleton_append, ← same, String.ofList_toList]
  unfold ofNumber
  split
  · next same => exact whole same
  · next same => exact whole same
  · rfl

end Lexeme

namespace Shape

variable {α : Type} {productionOf : α → Production}

theorem sign_of_chained {operand : Production} {signs : List String} {pieces : List (Piece α)}
    (chained : Chained productionOf operand signs pieces) {text : String}
    (member : .token text ∈ pieces) : text ∈ signs := by
  induction chained with
  | last => simp at member
  | next _ allowed _ induction =>
      simp only [List.mem_cons, reduceCtorEq, Piece.token.injEq, false_or] at member
      rcases member with rfl | member
      · exact allowed
      · exact induction member

theorem mark_of_listed {mark : String} {value : Production} {pieces : List (Piece α)}
    (listed : Listed productionOf mark value pieces) {text : String}
    (member : .token text ∈ pieces) : text = mark ∨ text = "," := by
  induction listed with
  | none => simp at member
  | last =>
      simp only [List.mem_cons, reduceCtorEq, Piece.token.injEq, List.not_mem_nil, false_or,
        or_false] at member
      exact .inl member
  | next _ _ _ induction =>
      simp only [List.mem_cons, reduceCtorEq, Piece.token.injEq, false_or] at member
      rcases member with rfl | rfl | member
      · exact .inl rfl
      · exact .inr rfl
      · exact induction member

/-- The tokens among the pieces of a tree have the texts of tokens. -/
theorem token_proper {production : Production} {pieces : List (Piece α)}
    (allowed : Allows productionOf production pieces) {text : String}
    (member : .token text ∈ pieces) : (Lexeme.ofToken production text).IsProper := by
  have texts : ∀ known : List String, text ∈ known →
      known ⊆ ["echo", "+", "-", "*", "/", "^", "(", ")", ":", "=", ",", "\n"] →
      (Lexeme.symbol text).IsProper := fun _ here all =>
      Lexeme.of_symbols_proper (all here)
  cases allowed with
  | intLiteral read =>
      obtain rfl : text = _ := by simpa using member
      exact Lexeme.number_proper (.inl rfl) (fun _ digits => digits) Scan.first_of_digits read
  | numLiteral read =>
      obtain rfl : text = _ := by simpa using member
      exact Lexeme.number_proper (.inr rfl) (fun _ real => real) Scan.first_of_real read
  | identifier read =>
      obtain rfl : text = _ := by simpa using member
      exact Lexeme.name_proper read
  | newline => exact texts ["\n"] (by simpa using member) (by simp)
  | simple => simp at member
  | group => exact texts ["(", ")"] (by simpa using member) (by simp)
  | factor => simp at member
  | power => exact texts ["^"] (by simpa using member) (by simp)
  | term chained => exact texts _ (sign_of_chained chained member) (by simp)
  | expr chained => exact texts _ (sign_of_chained chained member) (by simp)
  | define => exact texts [":", "="] (by simpa using member) (by simp)
  | defineAs => exact texts [":", "="] (by simpa using member) (by simp)
  | assign => exact texts ["="] (by simpa using member) (by simp)
  | echo => exact texts ["echo"] (by simpa using member) (by simp)
  | defineCallable => exact texts [":", "="] (by simpa using member) (by simp)
  | signature => exact texts ["(", ")"] (by simpa using member) (by simp)
  | parameters listed =>
      exact texts [":", ","] (by simpa using mark_of_listed listed member) (by simp)
  | call => exact texts ["(", ")"] (by simpa using member) (by simp)
  | arguments listed =>
      exact texts ["=", ","] (by simpa using mark_of_listed listed member) (by simp)

end Shape

namespace Tree

/-- All leaves of a tree that follows the table are words of tokens. -/
theorem lexemes_proper {tree : Tree} (shaped : tree.Everywhere FollowsTable) :
    ∀ lexeme ∈ tree.lexemes, lexeme.IsProper := by
  induction tree with
  | node production pieces location induction =>
      obtain ⟨allowed, inside⟩ := everywhere_node.mp shaped
      have tokens : ∀ text, .token text ∈ pieces → (Lexeme.ofToken production text).IsProper :=
        fun text member => Shape.token_proper allowed member
      rw [lexemes]
      clear allowed shaped
      induction pieces with
      | nil => simp [pieceLexemes]
      | cons piece pieces others =>
          have rest := others (fun tree member => induction tree (by simp [member]))
            (fun tree member => inside tree (by simp [member]))
            (fun text member => tokens text (by simp [member]))
          intro lexeme member
          cases piece with
          | token text =>
              rcases List.mem_cons.mp member with rfl | member
              · exact tokens text (by simp)
              · exact rest lexeme member
          | tree tree =>
              rcases List.mem_append.mp member with member | member
              · exact induction tree (by simp) (inside tree (by simp)) lexeme member
              · exact rest lexeme member

end Tree

/-- A program with a blank between any two leaves. -/
def written (forest : List Tree) : String :=
  " ".intercalate ((Tree.forestLexemes forest).map Lexeme.text)

theorem unbounded_written {forest : List Tree} (program : IsProgram forest) :
    ∃ body stop, unboundedTokens (written forest) = .ok (body ++ [stop]) ∧ stop.kind = .eof ∧
      Spells (Tree.forestLexemes forest) body := by
  refine unbounded_tokens_of_blanked fun lexeme member => ?_
  obtain ⟨tree, treeMember, member⟩ := List.mem_flatMap.mp member
  exact Tree.lexemes_proper (program.shaped tree treeMember) lexeme member

/-- A program is read again from what was written for it, if spans reach to its end. -/
theorem parse_written {forest : List Tree} (program : IsProgram forest)
    (fits : Text.byteSize (written forest).toList ≤ Span.maxOffset) :
    ∃ parsed, parse (written forest) = .ok parsed ∧
      parsed.map Tree.unlocated = forest.map Tree.unlocated := by
  obtain ⟨body, stop, scanned, ends, spelled⟩ := unbounded_written program
  obtain ⟨parsed, ran, same⟩ := parse_tokens_spelled program ends spelled
  exact ⟨parsed, parse_eq_ok_iff.mpr ⟨_, tokens_of_unbounded scanned fits, ran⟩, same⟩

end Reckon
