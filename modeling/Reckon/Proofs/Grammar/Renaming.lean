import Reckon.Proofs.Grammar.Completeness
import Reckon.Proofs.Grammar.Parallel
import Reckon.Proofs.Grammar.Refusals

/-!
Programs that may give an argument twice. Whether tokens spell one does not depend on the names in
them, so the names can be made to differ. Then no argument is given twice, and what is known of
programs applies.
-/

namespace Reckon

/-- The trees of a program, but that an argument may be given twice. -/
structure IsLooseProgram (forest : List Tree) : Prop where
  topLevel : ∀ tree ∈ forest, tree.production ∈
    [.newline, .echo, .varDefine, .varAssign, .callableDefine, .expr]
  separated : forest.IsChain Tree.Apart
  shaped : ∀ tree ∈ forest, tree.Everywhere Tree.FollowsTable

theorem IsProgram.loose {forest : List Tree} (program : IsProgram forest) :
    IsLooseProgram forest := ⟨program.topLevel, program.separated, program.shaped⟩

/-- The other token stands in the same place and says the same, but may be another name. -/
structure Token.Renamed (token other : Token) : Prop where
  kind : token.kind = other.kind
  location : token.location = other.location
  text : token.kind ≠ .ident → token.text = other.text
  named : token.kind = .ident → Scan.IsName other.text

namespace Token.Renamed

variable {token other next next' : Token}

theorem same (named : token.kind = .ident → Scan.IsName token.text) : token.Renamed token :=
  ⟨rfl, rfl, fun _ => rfl, named⟩

theorem of_proper (proper : token.IsProper) : token.Renamed token := by
  refine same fun named => ?_
  have described := proper.described
  rw [named] at described
  exact described

theorem word (renamed : token.Renamed other) (unnamed : token.kind ≠ .ident) :
    other.word = token.word := by
  rw [Token.word, Token.word, renamed.kind, renamed.text unnamed]

theorem adjacent (renamed : token.Renamed other) (followed : next.Renamed next') :
    token.isAdjacent next = other.isAdjacent next' := by
  rw [isAdjacent, isAdjacent, span, span, span, span, renamed.location, followed.location]

theorem proper (renamed : token.Renamed other) (proper : token.IsProper) : other.IsProper := by
  refine ⟨renamed.kind ▸ proper.inside, ?_⟩
  by_cases named : token.kind = .ident
  · rw [← renamed.kind, named]
    exact renamed.named named
  · rw [← renamed.kind, ← renamed.text named]
    exact proper.described

theorem symm (renamed : token.Renamed other) (proper : token.IsProper) : other.Renamed token := by
  refine ⟨renamed.kind.symm, renamed.location.symm, fun unnamed => ?_, fun named => ?_⟩
  · exact (renamed.text (renamed.kind ▸ unnamed)).symm
  · have described := proper.described
    rw [renamed.kind, named] at described
    exact described

end Token.Renamed

theorem split_renamed {front back others : List Token}
    (all : List.Forall₂ Token.Renamed (front ++ back) others) :
    ∃ first second, others = first ++ second ∧ List.Forall₂ Token.Renamed front first ∧
      List.Forall₂ Token.Renamed back second := by
  refine ⟨others.take front.length, others.drop front.length, ?_, ?_, ?_⟩
  · exact (List.take_append_drop _ _).symm
  · simpa using List.forall₂_take front.length all
  · simpa using List.forall₂_drop front.length all

theorem proper_of_renamed {tokens others : List Token}
    (all : List.Forall₂ Token.Renamed tokens others) (proper : ∀ token ∈ tokens, token.IsProper) :
    ∀ other ∈ others, other.IsProper := by
  induction all with
  | nil => simp
  | cons here _ induction =>
      simp only [List.mem_cons, forall_eq_or_imp] at proper ⊢
      exact ⟨here.proper proper.1, induction proper.2⟩

theorem renamed_back {tokens others : List Token}
    (all : List.Forall₂ Token.Renamed tokens others) (proper : ∀ token ∈ tokens, token.IsProper) :
    List.Forall₂ Token.Renamed others tokens := by
  induction all with
  | nil => exact .nil
  | cons here _ induction =>
      simp only [List.mem_cons, forall_eq_or_imp] at proper
      exact .cons (here.symm proper.1) (induction proper.2)

theorem joined_signs_renamed {tokens others : List Token}
    (all : List.Forall₂ Token.Renamed tokens others) : joinedSigns tokens = joinedSigns others := by
  induction all with
  | nil => rfl
  | cons renamed rest induction =>
      cases rest with
      | nil => rfl
      | cons followed =>
          rw [joinedSigns, joinedSigns, induction, renamed.kind, followed.kind,
            renamed.adjacent followed]

namespace Lexeme

theorem of_number_unnamed {kind : TokenKind} {text : String} (number : kind.isNumeric = true) :
    (∀ word, ofNumber kind text = .plain word → word.kind ≠ .ident) ∧
      ∀ sign digits, ofNumber kind text = .signed sign digits →
        sign.kind ≠ .ident ∧ digits.kind ≠ .ident := by
  have unnamed : kind ≠ .ident := by
    rintro rfl
    cases number
  unfold ofNumber
  split
  · exact ⟨by simp, by rintro sign digits ⟨⟩; exact ⟨by decide, unnamed⟩⟩
  · exact ⟨by simp, by rintro sign digits ⟨⟩; exact ⟨by decide, unnamed⟩⟩
  · exact ⟨by rintro word ⟨⟩; exact unnamed, by simp⟩

/-- Only an identifier is spelled with a name. -/
theorem of_token_unnamed {production : Production} {text : String}
    (other : production ≠ .identifier) :
    (∀ word, ofToken production text = .plain word → word.kind ≠ .ident) ∧
      ∀ sign digits, ofToken production text = .signed sign digits →
        sign.kind ≠ .ident ∧ digits.kind ≠ .ident := by
  have symbol : (∀ word, symbol text = .plain word → word.kind ≠ .ident) ∧
      ∀ sign digits, symbol text = .signed sign digits →
        sign.kind ≠ .ident ∧ digits.kind ≠ .ident := by
    refine ⟨?_, by simp [symbol]⟩
    rintro word ⟨⟩
    unfold Word.ofSymbol
    split <;> exact TokenKind.noConfusion
  cases production with
  | intLiteral => exact of_number_unnamed rfl
  | numLiteral => exact of_number_unnamed rfl
  | identifier => exact absurd rfl other
  | _ => exact symbol

end Lexeme

namespace Shape

/-- The texts are the same and the trees have the same productions. -/
def Alike : List (Piece Tree) → List (Piece Tree) → Prop :=
  List.Forall₂ (Piece.Like Eq fun tree other => tree.production = other.production)

variable {pieces others : List (Piece Tree)}

theorem chained_of_same_productions {operand : Production} {signs : List String}
    (alike : Alike pieces others) (chained : Chained Tree.production operand signs pieces) :
    Chained Tree.production operand signs others := by
  induction chained generalizing others with
  | last fits =>
      rcases alike with _ | ⟨⟨same⟩, _ | _⟩
      exact .last (same ▸ fits)
  | next fits allowed _ induction =>
      rcases alike with _ | ⟨⟨same⟩, _ | ⟨(_ | rfl), rest⟩⟩
      exact .next (same ▸ fits) allowed (induction rest)

theorem listed_of_same_productions {mark : String} {value : Production}
    (alike : Alike pieces others) (listed : Listed Tree.production mark value pieces) :
    Listed Tree.production mark value others := by
  induction listed generalizing others with
  | none =>
      cases alike
      exact .none
  | last named fits =>
      rcases alike with _ | ⟨⟨name⟩, _ | ⟨(_ | rfl), _ | ⟨⟨same⟩, _ | _⟩⟩⟩
      exact .last (name ▸ named) (same ▸ fits)
  | next named fits _ induction =>
      rcases alike with _ | ⟨⟨name⟩, _ | ⟨(_ | rfl), _ | ⟨⟨same⟩, _ | ⟨(_ | rfl), rest⟩⟩⟩⟩
      exact .next (name ▸ named) (same ▸ fits) (induction rest)

/-- The table looks at the texts and productions of pieces and at nothing else. -/
theorem allows_of_same_productions {production : Production} (alike : Alike pieces others)
    (allowed : Allows Tree.production production pieces) :
    Allows Tree.production production others := by
  cases allowed with
  | intLiteral read =>
      rcases alike with _ | ⟨(_ | rfl), _ | _⟩
      exact .intLiteral read
  | numLiteral read =>
      rcases alike with _ | ⟨(_ | rfl), _ | _⟩
      exact .numLiteral read
  | identifier read =>
      rcases alike with _ | ⟨(_ | rfl), _ | _⟩
      exact .identifier read
  | newline =>
      rcases alike with _ | ⟨(_ | rfl), _ | _⟩
      exact .newline
  | simple fits =>
      rcases alike with _ | ⟨⟨same⟩, _ | _⟩
      exact .simple (same ▸ fits)
  | group fits =>
      rcases alike with _ | ⟨(_ | rfl), _ | ⟨⟨same⟩, _ | ⟨(_ | rfl), _ | _⟩⟩⟩
      exact .group (same ▸ fits)
  | factor fits =>
      rcases alike with _ | ⟨⟨same⟩, _ | _⟩
      exact .factor (same ▸ fits)
  | power based raised =>
      rcases alike with _ | ⟨⟨base⟩, _ | ⟨(_ | rfl), _ | ⟨⟨exponent⟩, _ | _⟩⟩⟩
      exact .power (base ▸ based) (exponent ▸ raised)
  | term chained => exact .term (chained_of_same_productions alike chained)
  | expr chained => exact .expr (chained_of_same_productions alike chained)
  | define named valued =>
      rcases alike with _ | ⟨⟨name⟩, _ | ⟨(_ | rfl), _ | ⟨(_ | rfl), _ | ⟨⟨value⟩, _ | _⟩⟩⟩⟩
      exact .define (name ▸ named) (value ▸ valued)
  | defineAs named declared valued =>
      rcases alike with
        _ | ⟨⟨name⟩, _ | ⟨(_ | rfl), _ | ⟨⟨kind⟩, _ | ⟨(_ | rfl), _ | ⟨⟨value⟩, _ | _⟩⟩⟩⟩⟩
      exact .defineAs (name ▸ named) (kind ▸ declared) (value ▸ valued)
  | assign named valued =>
      rcases alike with _ | ⟨⟨name⟩, _ | ⟨(_ | rfl), _ | ⟨⟨value⟩, _ | _⟩⟩⟩
      exact .assign (name ▸ named) (value ▸ valued)
  | echo valued =>
      rcases alike with _ | ⟨(_ | rfl), _ | ⟨⟨value⟩, _ | _⟩⟩
      exact .echo (value ▸ valued)
  | defineCallable named signed valued =>
      rcases alike with
        _ | ⟨⟨name⟩, _ | ⟨(_ | rfl), _ | ⟨⟨kind⟩, _ | ⟨(_ | rfl), _ | ⟨⟨value⟩, _ | _⟩⟩⟩⟩⟩
      exact .defineCallable (name ▸ named) (kind ▸ signed) (value ▸ valued)
  | signature declared listed =>
      rcases alike with _ | ⟨⟨kind⟩, _ | ⟨(_ | rfl), _ | ⟨⟨list⟩, _ | ⟨(_ | rfl), _ | _⟩⟩⟩⟩
      exact .signature (kind ▸ declared) (list ▸ listed)
  | parameters listed => exact .parameters (listed_of_same_productions alike listed)
  | call named listed =>
      rcases alike with _ | ⟨⟨name⟩, _ | ⟨(_ | rfl), _ | ⟨⟨list⟩, _ | ⟨(_ | rfl), _ | _⟩⟩⟩⟩
      exact .call (name ▸ named) (list ▸ listed)
  | arguments listed => exact .arguments (listed_of_same_productions alike listed)

end Shape

namespace Tree

/-- Renamed tokens spell a tree that follows the table as well. -/
def Respells (tree : Tree) : Prop :=
  ∀ {tokens others : List Token}, Spells tree.lexemes tokens →
    List.Forall₂ Token.Renamed tokens others → ∃ other : Tree,
      tree.production = other.production ∧ other.Everywhere FollowsTable ∧
        Spells other.lexemes others

theorem respells_pieces {production : Production} (unnamed : production ≠ .identifier)
    {pieces : List (Piece Tree)} (inside : ∀ tree, .tree tree ∈ pieces → tree.Respells)
    {tokens others : List Token} (spelled : Spells (pieceLexemes production pieces) tokens)
    (renamed : List.Forall₂ Token.Renamed tokens others) :
    ∃ more, Shape.Alike pieces more ∧ (∀ tree, .tree tree ∈ more → tree.Everywhere FollowsTable) ∧
      Spells (pieceLexemes production more) others := by
  induction pieces generalizing tokens others with
  | nil =>
      cases spelled
      cases renamed
      exact ⟨[], .nil, by simp, .nil⟩
  | cons piece pieces induction =>
      have rest := fun {tokens others} => @induction
        (fun tree member => inside tree (List.mem_cons_of_mem _ member)) tokens others
      cases piece with
      | token text =>
          obtain ⟨plain, signed⟩ := Lexeme.of_token_unnamed unnamed
          rw [pieceLexemes] at spelled
          generalize leaf : Lexeme.ofToken production text = lexeme at spelled
          cases spelled with
          | @plain word token _ _ same after =>
              cases renamed with
              | cons here behind =>
                  obtain ⟨more, alike, shaped, spelled⟩ := rest after behind
                  refine ⟨.token text :: more, .cons (.token rfl) alike, by simpa using shaped, ?_⟩
                  rw [pieceLexemes, leaf]
                  have unnamed : token.kind ≠ .ident := by
                    rw [show token.kind = word.kind from congrArg Word.kind same]
                    exact plain word leaf
                  exact .plain ((here.word unnamed).trans same) spelled
          | @signed signWord numberWord sign number _ _ signSame numberSame adjacent after =>
              cases renamed with
              | cons here behind =>
                  cases behind with
                  | cons next behind =>
                      obtain ⟨more, alike, shaped, spelled⟩ := rest after behind
                      refine ⟨.token text :: more, .cons (.token rfl) alike,
                        by simpa using shaped, ?_⟩
                      rw [pieceLexemes, leaf]
                      obtain ⟨signOther, numberOther⟩ := signed _ _ leaf
                      have signUnnamed : sign.kind ≠ .ident := by
                        rw [show sign.kind = signWord.kind from congrArg Word.kind signSame]
                        exact signOther
                      have numberUnnamed : number.kind ≠ .ident := by
                        rw [show number.kind = numberWord.kind from congrArg Word.kind numberSame]
                        exact numberOther
                      exact .signed ((here.word signUnnamed).trans signSame)
                        ((next.word numberUnnamed).trans numberSame)
                        (here.adjacent next ▸ adjacent) spelled
      | tree tree =>
          rw [pieceLexemes] at spelled
          obtain ⟨front, back, rfl, before, after⟩ := spelled.split
          obtain ⟨first, second, rfl, frontRenamed, backRenamed⟩ := split_renamed renamed
          obtain ⟨other, same, shaped, spelled⟩ := inside tree (by simp) before frontRenamed
          obtain ⟨more, alike, allShaped, restSpelled⟩ := rest after backRenamed
          refine ⟨.tree other :: more, .cons (.tree same) alike, ?_, ?_⟩
          · simpa using ⟨shaped, allShaped⟩
          · rw [pieceLexemes]
            exact spelled.append restSpelled

/-- What a tree is spelled with does not depend on the names in it. -/
theorem respells {tree : Tree} (shaped : tree.Everywhere FollowsTable) : tree.Respells := by
  induction tree with
  | node production pieces location induction =>
      obtain ⟨allowed, shaped⟩ := everywhere_node.mp shaped
      intro tokens others spelled renamed
      by_cases named : production = .identifier
      · subst named
        cases allowed with
        | @identifier text read =>
            obtain ⟨token, rest, rfl, kind, same, nothing⟩ := Spells.name spelled
            cases nothing.eq_nil
            cases renamed with
            | @cons _ other _ _ here behind =>
                cases behind
                have name := here.named kind
                refine ⟨.ofToken .identifier other, rfl, ?_, ?_⟩
                · exact (is_name name).wellFormed.shaped
                · rw [of_token_lexemes, Lexeme.of_token_identifier,
                    Token.name_of_ident (here.kind ▸ kind)]
                  exact .single other
      · obtain ⟨more, alike, moreShaped, spelled⟩ := respells_pieces named
          (fun tree member => induction tree member (shaped tree member)) spelled renamed
        exact ⟨.node production more location, rfl,
          everywhere_node.mpr ⟨Shape.allows_of_same_productions alike allowed, moreShaped⟩, spelled⟩

end Tree

theorem respells_forest {forest : List Tree}
    (shaped : ∀ tree ∈ forest, tree.Everywhere Tree.FollowsTable) {tokens others : List Token}
    (spelled : Spells (Tree.forestLexemes forest) tokens)
    (renamed : List.Forall₂ Token.Renamed tokens others) :
    ∃ more : List Tree, forest.map Tree.production = more.map Tree.production ∧
      (∀ tree ∈ more, tree.Everywhere Tree.FollowsTable) ∧
      Spells (Tree.forestLexemes more) others := by
  induction forest generalizing tokens others with
  | nil =>
      cases spelled
      cases renamed
      exact ⟨[], rfl, by simp, .nil⟩
  | cons tree forest induction =>
      obtain ⟨front, back, rfl, before, after⟩ := Spells.split spelled
      obtain ⟨first, second, rfl, frontRenamed, backRenamed⟩ := split_renamed renamed
      obtain ⟨other, same, otherShaped, otherSpelled⟩ :=
        Tree.respells (shaped tree (by simp)) before frontRenamed
      obtain ⟨more, rest, moreShaped, moreSpelled⟩ :=
        induction (fun tree member => shaped tree (by simp [member])) after backRenamed
      refine ⟨other :: more, ?_, ?_, otherSpelled.append moreSpelled⟩
      · rw [List.map_cons, List.map_cons, same, rest]
      · simpa using ⟨otherShaped, moreShaped⟩

/-- What a program is spelled with does not depend on the names in it. -/
theorem respells_loose_program {forest : List Tree} (program : IsLooseProgram forest)
    {tokens others : List Token} (spelled : Spells (Tree.forestLexemes forest) tokens)
    (renamed : List.Forall₂ Token.Renamed tokens others) :
    ∃ more, IsLooseProgram more ∧ Spells (Tree.forestLexemes more) others := by
  obtain ⟨more, same, shaped, spelled⟩ := respells_forest program.shaped spelled renamed
  refine ⟨more, ⟨fun tree member => ?_, ?_, shaped⟩, spelled⟩
  · have among : tree.production ∈ more.map Tree.production := List.mem_map_of_mem member
    rw [← same] at among
    obtain ⟨given, known, production⟩ := List.mem_map.mp among
    exact production ▸ program.topLevel given known
  · let apart (first second : Production) : Prop := first = .newline ∨ second = .newline
    have separated : (forest.map Tree.production).IsChain apart :=
      (List.isChain_map _).mpr program.separated
    rw [same] at separated
    exact (List.isChain_map Tree.production).mp separated

/-- The name that a leaf is. -/
def Lexeme.name? : Lexeme → Option String
  | .plain word => if word.kind = .ident then some word.text else none
  | .signed _ _ => none

def Token.name? (token : Token) : Option String :=
  if token.kind = .ident then some token.text else none

/-- The names among leaves, in order. -/
def namesOf (lexemes : List Lexeme) : List String := lexemes.filterMap Lexeme.name?

theorem names_of_append (first second : List Lexeme) :
    namesOf (first ++ second) = namesOf first ++ namesOf second := List.filterMap_append

theorem names_of_spelled {lexemes : List Lexeme} {tokens : List Token}
    (spelled : Spells lexemes tokens) :
    (namesOf lexemes).Sublist (tokens.filterMap Token.name?) := by
  induction spelled with
  | nil => exact List.Sublist.slnil
  | @plain word token lexemes tokens same _ induction =>
      have names : Lexeme.name? (.plain word) = token.name? := by rw [← same]; rfl
      rw [namesOf, List.filterMap_cons, List.filterMap_cons, names]
      cases token.name? with
      | none => exact induction
      | some name => exact induction.cons_cons name
  | @signed signWord numberWord sign number lexemes tokens _ _ _ _ induction =>
      have behind : tokens.Sublist (sign :: number :: tokens) :=
        ((List.Sublist.refl tokens).cons number).cons sign
      exact induction.trans (behind.filterMap Token.name?)

namespace Tree

theorem lexemes_of_piece {production : Production} {pieces : List (Piece Tree)} {tree : Tree}
    (member : .tree tree ∈ pieces) : tree.lexemes.Sublist (pieceLexemes production pieces) := by
  induction pieces with
  | nil => cases member
  | cons piece pieces induction =>
      cases piece with
      | token text =>
          rw [pieceLexemes]
          exact (induction (by simpa using member)).cons _
      | tree first =>
          rw [pieceLexemes]
          rcases List.mem_cons.mp member with same | member
          · cases same
            exact List.sublist_append_left _ _
          · exact (induction member).trans (List.sublist_append_right _ _)

theorem lexemes_of_part {node tree : Tree} (part : node.PartOf tree) :
    node.lexemes.Sublist tree.lexemes := by
  induction part with
  | whole => exact List.Sublist.refl _
  | inside member _ induction => exact induction.trans (lexemes_of_piece member)

theorem name_among_lexemes (tree : Tree) : tree.name?.toList.Sublist (namesOf tree.lexemes) := by
  cases named : tree.name? with
  | none => exact List.nil_sublist _
  | some text =>
      obtain ⟨production, pieces, location⟩ := tree
      unfold name? at named
      split at named
      · next identifier =>
          cases identifier
          unfold leafText? at named
          split at named
          · next same =>
              cases same
              cases named
              exact List.Sublist.refl _
          · cases named
      · cases named

theorem names_among_lexemes (production : Production) (pieces : List (Piece Tree)) :
    (namesAmong pieces).Sublist (namesOf (pieceLexemes production pieces)) := by
  induction pieces with
  | nil => exact List.Sublist.slnil
  | cons piece pieces induction =>
      cases piece with
      | token text =>
          rw [names_among_token, pieceLexemes]
          exact induction.trans ((List.sublist_cons_self _ _).filterMap _)
      | tree tree =>
          rw [names_among_tree, pieceLexemes, names_of_append]
          exact tree.name_among_lexemes.append induction

end Tree

/-- A program in which no name comes twice gives no argument twice. -/
theorem IsLooseProgram.program {forest : List Tree} (program : IsLooseProgram forest)
    (distinct : (namesOf (Tree.forestLexemes forest)).Nodup) : IsProgram forest := by
  refine ⟨program.topLevel, program.separated, program.shaped, ?_⟩
  intro tree member node part list
  obtain ⟨production, pieces, location⟩ := node
  have inTree := Tree.lexemes_of_part part
  have inForest : tree.lexemes.Sublist (Tree.forestLexemes forest) :=
    List.sublist_flatten_of_mem (List.mem_map_of_mem member)
  have inside := (Tree.names_among_lexemes production pieces).trans
    ((inTree.trans inForest).filterMap Lexeme.name?)
  exact distinct.sublist inside

/-- A name for each index. -/
def nameAt (index : Nat) : String := String.ofList (List.replicate (index + 1) 'a')

/-- The tokens with names that all differ, from the index on. -/
def distinguish : Nat → List Token → List Token
  | _, [] => []
  | index, token :: tokens =>
      (if token.kind = .ident then { token with text := nameAt index } else token) ::
        distinguish (index + 1) tokens

theorem name_at_is_name (index : Nat) : Scan.IsName (nameAt index) :=
  Scan.letters_are_name (Nat.succ_pos index)

theorem name_at_injective {first second : Nat} (same : nameAt first = nameAt second) :
    first = second := by
  have lengths := congrArg (·.toList.length) same
  simpa [nameAt] using lengths

theorem distinguish_renamed (index : Nat) (tokens : List Token) :
    List.Forall₂ Token.Renamed tokens (distinguish index tokens) := by
  induction tokens generalizing index with
  | nil => exact .nil
  | cons token tokens induction =>
      refine .cons ?_ (induction (index + 1))
      split
      · next named =>
          exact ⟨rfl, rfl, fun other => absurd named other, fun _ => name_at_is_name index⟩
      · next other => exact ⟨rfl, rfl, fun _ => rfl, fun named => absurd named other⟩

theorem distinguish_names (index : Nat) (tokens : List Token) :
    ((distinguish index tokens).filterMap Token.name?).Nodup ∧
      ∀ name ∈ (distinguish index tokens).filterMap Token.name?, ∃ other ≥ index,
        name = nameAt other := by
  induction tokens generalizing index with
  | nil => exact ⟨.nil, by simp [distinguish]⟩
  | cons token tokens induction =>
      obtain ⟨distinct, later⟩ := induction (index + 1)
      rw [distinguish]
      split
      · next named =>
          have name : Token.name? { token with text := nameAt index } = some (nameAt index) :=
            if_pos named
          rw [List.filterMap_cons, name]
          refine ⟨List.nodup_cons.mpr ⟨fun again => ?_, distinct⟩, ?_⟩
          · obtain ⟨other, after, same⟩ := later _ again
            have equal := name_at_injective same
            omega
          · intro text member
            rcases List.mem_cons.mp member with rfl | member
            · exact ⟨index, Nat.le_refl _, rfl⟩
            · obtain ⟨other, after, same⟩ := later text member
              exact ⟨other, by omega, same⟩
      · next unnamed =>
          have name : token.name? = none := if_neg unnamed
          rw [List.filterMap_cons, name]
          refine ⟨distinct, fun text member => ?_⟩
          obtain ⟨other, after, same⟩ := later text member
          exact ⟨other, by omega, same⟩

end Reckon
