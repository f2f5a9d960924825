import Reckon.Proofs.Grammar.Soundness
import Reckon.Proofs.Tree.Unlocated

/-!
Every program is read. The tokens that spell a tree lead from where it is due to where it has been
read, whatever stands around it, and the tree then is the given one apart from locations. The
induction is on the tree; a chain and a list are read piece by piece, with the earlier pieces kept
as the reading keeps them.
-/

namespace Reckon

namespace Spells

theorem symbol {text : String} {lexemes : List Lexeme} {tokens : List Token}
    (spelled : Spells (.symbol text :: lexemes) tokens) (kind : TokenKind)
    (symbol : kind.symbol? = some text) :
    ∃ token rest, tokens = token :: rest ∧ token.kind = kind ∧ token.text = text ∧
      Spells lexemes rest := by
  rw [Lexeme.symbol, Word.of_symbol_eq symbol] at spelled
  exact spelled.uncons

theorem name {text : String} {lexemes : List Lexeme} {tokens : List Token}
    (spelled : Spells (.name text :: lexemes) tokens) :
    ∃ token rest, tokens = token :: rest ∧ token.kind = .ident ∧ token.text = text ∧
      Spells lexemes rest := spelled.uncons

end Spells

namespace Tree

theorem alike_atom_of {tree other : Tree} (same : tree.Alike other) :
    (atomOf tree).Alike (atomOf other) := alike_node (alike_cons_tree same rfl)

theorem alike_power {base other exponent raised : Tree} (based : base.Alike other)
    (same : exponent.Alike raised) : (power base exponent).Alike (power other raised) :=
  alike_node (alike_cons_tree based (alike_cons_token (alike_cons_tree same rfl)))

theorem alike_name {token : Token} {text : String} (same : token.text = text)
    (location : Location) : (ofToken .identifier token).Alike (leaf .identifier text location) := by
  subst same
  exact alike_node rfl

end Tree

namespace Reading

/-- The tokens lead from one stage of a statement to another. -/
def Leads (stage : Stage) (tokens : List Token) (next : Stage) : Prop :=
  ∀ finished, Reading.run ⟨finished, stage⟩ tokens = .ok ⟨finished, next⟩

section

variable {stage middle next : Stage} {tokens others : List Token} {token : Token}

theorem run_of_takes {reading after : Reading} (takes : Takes reading token after) :
    reading.run (token :: tokens) = after.run tokens := by
  rw [run_cons, step_of_takes takes]
  rfl

theorem Leads.here : Leads stage [] stage := fun _ => rfl

theorem Leads.cons (takes : ∀ finished, Takes ⟨finished, stage⟩ token ⟨finished, middle⟩)
    (leads : Leads middle tokens next) : Leads stage (token :: tokens) next := by
  intro finished
  rw [run_of_takes (takes finished)]
  exact leads finished

theorem Leads.single (takes : ∀ finished, Takes ⟨finished, stage⟩ token ⟨finished, next⟩) :
    Leads stage [token] next := .cons takes .here

theorem Leads.append (leads : Leads stage tokens middle) (after : Leads middle others next) :
    Leads stage (tokens ++ others) next := by
  intro finished
  rw [run_append, leads finished]
  exact after finished

end

/-- The tokens lead to where the atom has been read. -/
def Reaches (stage : Stage) (tokens : List Token) (inside : Inside) (atom : Tree) : Prop :=
  ∃ next, Leads stage tokens next ∧ AtomRead next inside atom

theorem leads_name {stage : Stage} {inside : Inside} {token : Token}
    (begins : AtomBegins stage inside) (kind : token.kind = .ident) :
    ∃ next, Leads stage [token] next ∧ NameRead next inside token := by
  cases begins with
  | due => exact ⟨_, .single fun _ => .atomName kind, .inside _ token⟩
  | bare => exact ⟨_, .single fun _ => .name kind, .bare token⟩

theorem reaches_number {kind : TokenKind} {production : Production} {text : String}
    {unsigned : List Char → Prop} {stage : Stage} {inside : Inside} {tokens : List Token}
    {location : Location} (leaf : NumberLeaf kind production)
    (read : Shape.IsSigned unsigned text)
    (digit : ∀ {chars}, unsigned chars → ∃ first rest, chars = first :: rest ∧
      Scan.isDigit first = true)
    (begins : AtomBegins stage inside) (spelled : Spells [.ofToken production text] tokens) :
    ∃ atom, Reaches stage tokens inside atom ∧
      atom.Alike (.atomOf (.leaf production text location)) := by
  have same : Lexeme.ofToken production text = Lexeme.ofNumber kind text := by
    cases leaf <;> rfl
  rw [same] at spelled
  obtain ⟨sign, digits, chars, signed, unsignedDigits⟩ := read
  have signedCase : ∀ {signKind : TokenKind} {char : Char}, sign = [char] →
      (signKind = .plus ∨ signKind = .minus) →
      Spells [.signed ⟨signKind, String.ofList [char]⟩ ⟨kind, String.ofList digits⟩] tokens →
      ∃ atom, Reaches stage tokens inside atom ∧
        atom.Alike (.atomOf (.leaf production text location)) := by
    intro signKind char single signKinds spelled
    have whole : text = String.ofList [char] ++ String.ofList digits := by
      apply String.toList_inj.mp
      rw [chars, single, String.toList_append, String.toList_ofList, String.toList_ofList]
    cases spelled with
    | @signed _ _ signToken number _ _ signSame numberSame adjacent rest =>
        cases rest.eq_nil
        have numberKind : number.kind = kind := congrArg Word.kind numberSame
        have isSign : signToken.kind = .plus ∨ signToken.kind = .minus := by
          rw [show signToken.kind = signKind from congrArg Word.kind signSame]
          exact signKinds
        refine ⟨_, ⟨_, .cons (fun _ => .sign begins isSign) (.single fun _ =>
          .signedNumber adjacent (by rw [numberKind]; exact leaf)), .whole ..⟩, ?_⟩
        have texts : signToken.text ++ number.text = text := by
          rw [whole]
          exact congrArg₂ (· ++ ·) (congrArg Word.text signSame) (congrArg Word.text numberSame)
        rw [literal, texts]
        exact Tree.alike_atom_of (Tree.alike_node rfl)
  rcases signed with rfl | rfl | rfl
  · obtain ⟨first, rest, rfl, isDigit⟩ := digit unsignedDigits
    rw [Lexeme.of_unsigned_number chars isDigit] at spelled
    obtain ⟨token, others, rfl, tokenKind, tokenText, rest⟩ := spelled.uncons
    cases rest.eq_nil
    refine ⟨_, ⟨_, .single fun _ => .number begins (by rw [tokenKind]; exact leaf), .whole ..⟩, ?_⟩
    rw [Tree.ofToken, tokenText]
    exact Tree.alike_atom_of (Tree.alike_node rfl)
  · rw [Lexeme.ofNumber, chars] at spelled
    exact signedCase rfl (.inl rfl) spelled
  · rw [Lexeme.ofNumber, chars] at spelled
    exact signedCase rfl (.inr rfl) spelled

theorem alike_chain_pieces {earlier : List (Tree × Token)} {pieces others : List (Piece Tree)}
    (alike : Tree.AlikePieces pieces others) :
    Tree.AlikePieces (chainPieces earlier pieces) (chainPieces earlier others) := by
  induction earlier generalizing pieces others with
  | nil => exact alike
  | cons operand earlier induction =>
      exact induction (Tree.alike_cons_tree rfl (Tree.alike_cons_token alike))

/-- What reading one operand means for a chain whose place is known from the operands before. -/
def ReadsOperand (around : List (Tree × Token) → Inside)
    (ends : List (Tree × Token) → Inside → Tree → Tree → Prop) (tree : Tree) : Prop :=
  ∀ {stage : Stage} {earlier : List (Tree × Token)} {tokens : List Token},
    AtomBegins stage (around earlier) → Spells tree.lexemes tokens →
    ∃ inside atom last, Reaches stage tokens inside atom ∧ ends earlier inside atom last ∧
      last.Alike tree

/-- A chain is read if its operands are and its operators lead from one to the next. -/
theorem reads_chain (production : Production) {operand : Production} {signs : List String}
    (around : List (Tree × Token) → Inside)
    (ends : List (Tree × Token) → Inside → Tree → Tree → Prop)
    (symbols : ∀ text, Lexeme.ofToken production text = .symbol text)
    (goesOn : ∀ {finished stage earlier inside atom last sign token}, sign ∈ signs →
      token.word = .ofSymbol sign → ends earlier inside atom last → AtomRead stage inside atom →
      Takes ⟨finished, stage⟩ token ⟨finished, .atomDue (around ((last, token) :: earlier))⟩)
    {pieces : List (Piece Tree)} (chained : Shape.Chained Tree.production operand signs pieces)
    (operands : ∀ tree, .tree tree ∈ pieces → tree.production = operand →
      ReadsOperand around ends tree)
    {stage : Stage} (earlier : List (Tree × Token)) {tokens : List Token}
    (begins : AtomBegins stage (around earlier))
    (spelled : Spells (Tree.pieceLexemes production pieces) tokens) :
    ∃ inside atom others last, Reaches stage tokens inside atom ∧ ends others inside atom last ∧
      Tree.AlikePieces (chainPieces others [.tree last]) (chainPieces earlier pieces) := by
  induction chained generalizing stage earlier tokens with
  | @last tree fits =>
      simp only [Tree.pieceLexemes, List.append_nil] at spelled
      obtain ⟨inside, atom, last, reaches, ended, same⟩ :=
        operands tree (by simp) fits begins spelled
      exact ⟨inside, atom, earlier, last, reaches, ended,
        alike_chain_pieces (Tree.alike_cons_tree same rfl)⟩
  | @next tree sign rest fits allowed _ induction =>
      simp only [Tree.pieceLexemes, symbols] at spelled
      obtain ⟨front, back, rfl, before, after⟩ := spelled.split
      obtain ⟨inside, atom, last, ⟨next, leads, read⟩, ended, same⟩ :=
        operands tree (by simp) fits begins before
      cases after with
      | @plain _ token _ _ word others =>
          have text : token.text = sign := by
            rw [← Word.of_symbol_text sign, ← word]
            rfl
          obtain ⟨inside', atom', others', last', ⟨next', leads', read'⟩, ended', alike⟩ :=
            induction (fun other member => operands other (by simp [member])) _ (.due _) others
          refine ⟨inside', atom', others', last', ⟨next', leads.append (.cons (fun _ =>
            goesOn allowed word ended read) leads'), read'⟩, ended', alike.trans ?_⟩
          rw [← text]
          exact alike_chain_pieces (Tree.alike_cons_tree same (Tree.alike_cons_token rfl))

theorem alike_list_pieces {mark : String} (items : List ListItem)
    {pieces others : List (Piece Tree)} (alike : Tree.AlikePieces pieces others) :
    Tree.AlikePieces (listPieces mark items pieces) (listPieces mark items others) := by
  induction items generalizing pieces others with
  | nil => exact alike
  | cons item items induction =>
      refine induction ?_
      rw [Tree.AlikePieces, List.map_append, List.map_append, alike]

theorem alike_raise_all (bases : List Tree) {exponent other : Tree} (same : exponent.Alike other) :
    (raiseAll bases exponent).Alike (raiseAll bases other) := by
  induction bases generalizing exponent other with
  | nil => exact same
  | cons base bases induction => exact induction (Tree.alike_power rfl same)

/-- Where an atom is due the tokens of the tree lead to an atom like the given one. -/
def ReadsAtom (tree result : Tree) : Prop :=
  ∀ {stage : Stage} {inside : Inside} {tokens : List Token},
    AtomBegins stage inside → Spells tree.lexemes tokens →
    ∃ atom, Reaches stage tokens inside atom ∧ atom.Alike result

def ReadsFactor (tree : Tree) : Prop :=
  ∀ {stage : Stage} {head : Head} {openings : List Opening} {terms factors : List (Tree × Token)}
    {bases : List Tree} {tokens : List Token},
    AtomBegins stage ⟨head, openings, ⟨terms, factors, bases⟩⟩ → Spells tree.lexemes tokens →
    ∃ others atom, Reaches stage tokens ⟨head, openings, ⟨terms, factors, others⟩⟩ atom ∧
      (finishFactor others atom).Alike (raiseAll bases tree)

def ReadsTerm (tree : Tree) : Prop :=
  ∀ {stage : Stage} {head : Head} {openings : List Opening} {terms : List (Tree × Token)}
    {tokens : List Token},
    AtomBegins stage ⟨head, openings, ⟨terms, [], []⟩⟩ → Spells tree.lexemes tokens →
    ∃ factors bases atom, Reaches stage tokens ⟨head, openings, ⟨terms, factors, bases⟩⟩ atom ∧
      (Chain.finishTerm ⟨terms, factors, bases⟩ atom).Alike tree

def ReadsExpr (tree : Tree) : Prop :=
  ∀ {stage : Stage} {head : Head} {openings : List Opening} {tokens : List Token},
    AtomBegins stage ⟨head, openings, .empty⟩ → Spells tree.lexemes tokens →
    ∃ chain atom, Reaches stage tokens ⟨head, openings, chain⟩ atom ∧
      (chain.finish atom).Alike tree

/-- The tokens of a list and a parenthesis after them finish a call without arguments so far. -/
def ReadsArguments (tree : Tree) : Prop :=
  ∀ (inside : Inside) (callee opening : Token) {closing : Token} {tokens : List Token},
    closing.kind = .rightParen → Spells tree.lexemes tokens →
    ∃ items, Leads (.argumentDue inside ⟨callee, opening, []⟩) (tokens ++ [closing])
        (.atomRead inside (OpenCall.finish ⟨callee, opening, items⟩ closing)) ∧
      (finishList .arguments "=" items closing).Alike tree

/-- What the tokens of a tree lead to, by its production. -/
structure Readable (tree : Tree) : Prop where
  atom : tree.production = .atom → ReadsAtom tree tree
  call : tree.production = .call → ReadsAtom tree (.atomOf tree)
  factor : tree.production = .factor → ReadsFactor tree
  term : tree.production = .term → ReadsTerm tree
  expr : tree.production = .expr → ReadsExpr tree
  arguments : tree.production = .arguments → ReadsArguments tree

theorem reads_group {inner : Tree} {location : Location} (reads : ReadsExpr inner) :
    let tree : Tree := .node .atom [.token "(", .tree inner, .token ")"] location
    ReadsAtom tree tree := by
  intro tree stage inside tokens begins spelled
  obtain ⟨head, openings, chain⟩ := inside
  simp only [tree, Tree.lexemes, Tree.pieceLexemes, Lexeme.ofToken] at spelled
  obtain ⟨opening, tokens, rfl, opened, openingText, spelled⟩ :=
    spelled.symbol .leftParen rfl
  obtain ⟨front, back, rfl, before, after⟩ := spelled.split
  obtain ⟨closing, tokens, rfl, closed, closingText, rest⟩ :=
    after.symbol .rightParen rfl
  cases rest.eq_nil
  obtain ⟨inner', atom, ⟨next, leads, read⟩, same⟩ := reads (.due ⟨head,
    .group opening chain :: openings, .empty⟩) before
  refine ⟨_, ⟨_, .cons (fun _ => .openGroup begins opened) (leads.append (.single fun _ =>
    .closeGroup read closed)), .whole ..⟩, ?_⟩
  rw [Tree.group, openingText, closingText]
  exact Tree.alike_node (Tree.alike_cons_token (Tree.alike_cons_tree same rfl))

theorem reads_name {text : String} {location outer : Location} :
    let tree : Tree := .node .atom [.tree (.leaf .identifier text location)] outer
    ReadsAtom tree tree := by
  intro tree stage inside tokens begins spelled
  simp only [tree, Tree.lexemes, Tree.pieceLexemes, Tree.leaf, List.append_nil] at spelled
  obtain ⟨token, tokens, rfl, kind, same, rest⟩ := Spells.name spelled
  cases rest.eq_nil
  obtain ⟨next, leads, read⟩ := leads_name begins kind
  refine ⟨_, ⟨next, leads, .name read⟩, ?_⟩
  exact Tree.alike_node (Tree.alike_cons_tree (Tree.alike_name same location) rfl)

theorem reads_call {text : String} {location outer : Location} {list : Tree}
    (reads : ReadsArguments list) :
    let tree : Tree := .node .call
      [.tree (.leaf .identifier text location), .token "(", .tree list, .token ")"] outer
    ReadsAtom tree (.atomOf tree) := by
  intro tree stage inside tokens begins spelled
  simp only [tree, Tree.lexemes, Tree.pieceLexemes, Tree.leaf, Lexeme.ofToken, List.cons_append,
    List.nil_append] at spelled
  obtain ⟨callee, tokens, rfl, named, calleeText, spelled⟩ := Spells.name spelled
  obtain ⟨opening, tokens, rfl, opened, openingText, spelled⟩ :=
    spelled.symbol .leftParen rfl
  obtain ⟨front, back, rfl, before, after⟩ := spelled.split
  obtain ⟨closing, tokens, rfl, closed, closingText, rest⟩ :=
    after.symbol .rightParen rfl
  cases rest.eq_nil
  obtain ⟨next, leads, read⟩ := leads_name begins named
  obtain ⟨items, argumentsLead, same⟩ := reads inside callee opening closed before
  refine ⟨_, ⟨_, leads.append (.cons (fun _ => .openCall read opened) argumentsLead),
    .whole ..⟩, ?_⟩
  apply Tree.alike_atom_of
  rw [openingText, closingText]
  exact Tree.alike_node (Tree.alike_cons_tree (Tree.alike_name calleeText location)
    (Tree.alike_cons_token (Tree.alike_cons_tree same rfl)))

theorem reads_factor_of {base : Tree} {location : Location} (reads : ReadsAtom base base) :
    ReadsFactor (.node .factor [.tree base] location) := by
  intro stage head openings terms factors bases tokens begins spelled
  simp only [Tree.lexemes, Tree.pieceLexemes, List.append_nil] at spelled
  obtain ⟨atom, reaches, same⟩ := reads begins spelled
  refine ⟨bases, atom, reaches, alike_raise_all bases ?_⟩
  exact Tree.alike_node (Tree.alike_cons_tree same rfl)

theorem reads_power {base exponent : Tree} {location : Location} (reads : ReadsAtom base base)
    (raised : ReadsFactor exponent) :
    ReadsFactor (.node .factor [.tree base, .token "^", .tree exponent] location) := by
  intro stage head openings terms factors bases tokens begins spelled
  simp only [Tree.lexemes, Tree.pieceLexemes, Lexeme.ofToken, List.append_nil] at spelled
  obtain ⟨front, back, rfl, before, after⟩ := spelled.split
  obtain ⟨caret, tokens, rfl, kind, _, rest⟩ := after.symbol .caret rfl
  obtain ⟨atom, ⟨next, leads, read⟩, same⟩ := reads begins before
  obtain ⟨others, last, ⟨next', leads', read'⟩, alike⟩ := raised (.due ⟨head, openings,
    ⟨terms, factors, atom :: bases⟩⟩) rest
  refine ⟨others, last, ⟨next', leads.append (.cons (fun _ => .caret read kind) leads'), read'⟩,
    alike.trans ?_⟩
  -- the innermost power of the fold is the factor itself, apart from locations
  refine alike_raise_all bases ?_
  exact Tree.alike_node (Tree.alike_cons_tree same (Tree.alike_cons_token rfl))

theorem multiplicative_of_word {sign : String} {token : Token} (sign_ : sign ∈ ["*", "/"])
    (word : token.word = .ofSymbol sign) : token.kind = .star ∨ token.kind = .slash := by
  have kind : token.kind = (Word.ofSymbol sign).kind := congrArg Word.kind word
  simp only [List.mem_cons, List.not_mem_nil, or_false] at sign_
  rcases sign_ with rfl | rfl
  · exact .inl kind
  · exact .inr kind

theorem additive_of_word {sign : String} {token : Token} (sign_ : sign ∈ ["+", "-"])
    (word : token.word = .ofSymbol sign) : token.kind = .plus ∨ token.kind = .minus := by
  have kind : token.kind = (Word.ofSymbol sign).kind := congrArg Word.kind word
  simp only [List.mem_cons, List.not_mem_nil, or_false] at sign_
  rcases sign_ with rfl | rfl
  · exact .inl kind
  · exact .inr kind

theorem reads_term {pieces : List (Piece Tree)} {location : Location}
    (chained : Shape.Chained Tree.production .factor ["*", "/"] pieces)
    (operands : ∀ tree, .tree tree ∈ pieces → tree.production = .factor → ReadsFactor tree) :
    ReadsTerm (.node .term pieces location) := by
  intro stage head openings terms tokens begins spelled
  obtain ⟨inside, atom, others, last, reaches, ended, alike⟩ :=
    reads_chain .term (fun earlier => ⟨head, openings, ⟨terms, earlier, []⟩⟩)
      (fun earlier inside atom last => ∃ bases,
        inside = ⟨head, openings, ⟨terms, earlier, bases⟩⟩ ∧ last = finishFactor bases atom)
      (fun _ => rfl)
      (by
        rintro finished stage earlier inside atom last sign token allowed word
          ⟨bases, rfl, rfl⟩ read
        exact .multiplicative read (multiplicative_of_word allowed word))
      chained
      (by
        intro tree member fits stage earlier tokens begins spelled
        obtain ⟨others, atom, reaches, same⟩ := operands tree member fits begins spelled
        exact ⟨_, atom, _, reaches, ⟨others, rfl, rfl⟩, same⟩)
      [] begins spelled
  obtain ⟨bases, rfl, rfl⟩ := ended
  exact ⟨others, bases, atom, reaches, Tree.alike_node alike⟩

theorem reads_expr {pieces : List (Piece Tree)} {location : Location}
    (chained : Shape.Chained Tree.production .term ["+", "-"] pieces)
    (operands : ∀ tree, .tree tree ∈ pieces → tree.production = .term → ReadsTerm tree) :
    ReadsExpr (.node .expr pieces location) := by
  intro stage head openings tokens begins spelled
  obtain ⟨inside, atom, others, last, reaches, ended, alike⟩ :=
    reads_chain .expr (fun earlier => ⟨head, openings, ⟨earlier, [], []⟩⟩)
      (fun earlier inside atom last => ∃ factors bases,
        inside = ⟨head, openings, ⟨earlier, factors, bases⟩⟩ ∧
          last = Chain.finishTerm ⟨earlier, factors, bases⟩ atom)
      (fun _ => rfl)
      (by
        rintro finished stage earlier inside atom last sign token allowed word
          ⟨factors, bases, rfl, rfl⟩ read
        exact .additive read (additive_of_word allowed word))
      chained
      (by
        intro tree member fits stage earlier tokens begins spelled
        obtain ⟨factors, bases, atom, reaches, same⟩ := operands tree member fits begins spelled
        exact ⟨_, atom, _, reaches, ⟨factors, bases, rfl, rfl⟩, same⟩)
      [] begins spelled
  obtain ⟨factors, bases, rfl, rfl⟩ := ended
  exact ⟨⟨others, factors, bases⟩, atom, reaches, Tree.alike_node alike⟩

/-- The groups of an argument list are read one after the other, and the call then ends. -/
theorem reads_groups {pieces : List (Piece Tree)}
    (listed : Shape.Listed Tree.production "=" .expr pieces)
    (shaped : ∀ tree, .tree tree ∈ pieces → tree.FollowsTable)
    (values : ∀ tree, .tree tree ∈ pieces → tree.production = .expr → ReadsExpr tree)
    {inside : Inside} {callee opening closing : Token} (items : List ListItem)
    {tokens : List Token}
    (once : (items.reverse.map (·.name.text) ++ Tree.namesAmong pieces).Nodup)
    (closed : closing.kind = .rightParen)
    (spelled : Spells (Tree.pieceLexemes .arguments pieces) tokens) :
    ∃ all, Leads (.argumentDue inside ⟨callee, opening, items⟩) (tokens ++ [closing])
        (.atomRead inside (OpenCall.finish ⟨callee, opening, all⟩ closing)) ∧
      Tree.AlikePieces (listPieces "=" all []) (listPieces "=" items pieces) := by
  have distinct : ∀ items : List ListItem, (items.reverse.map (·.name.text)).Nodup →
      OpenCall.repeated? ⟨callee, opening, items⟩ = none := by
    intro items nodup
    refine first_repeated_eq_none_iff.mpr ⟨?_, by simp⟩
    rw [List.map_map]
    exact nodup
  induction listed generalizing items tokens with
  | none =>
      cases spelled
      have apart := distinct items (by simpa [Tree.namesAmong] using once)
      exact ⟨items, .single fun _ => .closeCall closed apart, rfl⟩
  | @last name value named fits =>
      obtain ⟨text, location, rfl, _⟩ := Tree.text_of_name (shaped name (by simp)) named
      rw [Tree.names_among_group fits] at once
      simp only [Tree.pieceLexemes, Tree.lexemes, Tree.leaf, Lexeme.ofToken, List.cons_append,
        List.nil_append, List.append_nil] at spelled
      obtain ⟨nameToken, tokens, rfl, nameKind, rfl, afterName⟩ := Spells.name spelled
      obtain ⟨mark, tokens, rfl, markKind, _, spelled⟩ := afterName.symbol .equals rfl
      obtain ⟨chain, atom, ⟨next, leads, read⟩, same⟩ := values value (by simp) fits
        (.due ⟨inside.head, .argument ⟨callee, opening, items⟩ nameToken inside.chain ::
          inside.openings, .empty⟩) spelled
      have apart := distinct (⟨nameToken, chain.finish atom, none⟩ :: items)
        (by simpa [Tree.namesAmong] using once)
      refine ⟨_, .cons (fun _ => .argumentName nameKind) (.cons (fun _ => .argumentEquals markKind)
        (leads.append (.single fun _ => .lastArgument read closed apart))), ?_⟩
      refine alike_list_pieces items ?_
      exact Tree.alike_cons_tree (Tree.alike_name rfl location)
        (Tree.alike_cons_token (Tree.alike_cons_tree same rfl))
  | @next name value rest named fits others induction =>
      obtain ⟨text, location, rfl, _⟩ := Tree.text_of_name (shaped name (by simp)) named
      rw [Tree.names_among_group fits] at once
      simp only [Tree.pieceLexemes, Tree.lexemes, Tree.leaf, Lexeme.ofToken, List.cons_append,
        List.nil_append] at spelled
      obtain ⟨nameToken, tokens, rfl, nameKind, rfl, afterName⟩ := Spells.name spelled
      obtain ⟨mark, tokens, rfl, markKind, _, spelled⟩ := afterName.symbol .equals rfl
      obtain ⟨front, back, rfl, before, after⟩ := spelled.split
      obtain ⟨comma, tokens, rfl, commaKind, commaText, spelled⟩ :=
        after.symbol .comma rfl
      obtain ⟨chain, atom, ⟨next, leads, read⟩, same⟩ := values value (by simp) fits
        (.due ⟨inside.head, .argument ⟨callee, opening, items⟩ nameToken inside.chain ::
          inside.openings, .empty⟩) before
      obtain ⟨all, restLeads, alike⟩ := induction
        (fun tree member => shaped tree (by simp [member]))
        (fun tree member => values tree (by simp [member]))
        (⟨nameToken, chain.finish atom, some comma⟩ :: items) (by simpa using once) spelled
      have whole := leads.append (.cons (fun _ => .argumentComma read commaKind) restLeads)
      rw [← List.cons_append, ← List.append_assoc] at whole
      refine ⟨all, .cons (fun _ => .argumentName nameKind) (.cons (fun _ =>
        .argumentEquals markKind) whole), alike.trans ?_⟩
      refine alike_list_pieces items ?_
      simp only [ListItem.pieces, Option.map_some, Option.toList_some, commaText]
      exact Tree.alike_cons_tree (Tree.alike_name rfl location)
        (Tree.alike_cons_token (Tree.alike_cons_tree same rfl))

/-- Every well-formed tree is read. -/
theorem readable {tree : Tree} (wellFormed : tree.WellFormed) : Readable tree := by
  induction tree with
  | node production pieces location induction =>
      obtain ⟨allowed, shaped⟩ := Tree.everywhere_node.mp wellFormed.shaped
      obtain ⟨once, distinct⟩ := Tree.everywhere_node.mp wellFormed.distinct
      have inside : ∀ tree, .tree tree ∈ pieces → Readable tree := fun tree member =>
        induction tree member ⟨shaped tree member, distinct tree member⟩
      have follows : ∀ tree, .tree tree ∈ pieces → tree.FollowsTable := fun tree member =>
        shaped tree member tree .whole
      constructor
      · rintro ⟨⟩
        cases allowed with
        | @simple inner fits =>
            have readable := inside inner (by simp)
            have table := follows inner (by simp)
            obtain ⟨innerProduction, innerPieces, innerLocation⟩ := inner
            simp only [Tree.production, List.mem_cons, List.not_mem_nil, or_false] at fits
            rcases fits with rfl | rfl | rfl | rfl
            · intro stage inside tokens begins spelled
              simp only [Tree.lexemes, Tree.pieceLexemes, List.append_nil] at spelled
              exact readable.call rfl begins spelled
            · cases table with
              | intLiteral read =>
                  intro stage inside tokens begins spelled
                  exact reaches_number .int read Scan.first_of_digits begins spelled
            · cases table with
              | numLiteral read =>
                  intro stage inside tokens begins spelled
                  exact reaches_number .num read Scan.first_of_real begins spelled
            · cases table with
              | identifier =>
                  intro stage inside tokens begins spelled
                  exact reads_name begins spelled
        | @group inner fits => exact reads_group ((inside inner (by simp)).expr fits)
      · rintro ⟨⟩
        cases allowed with
        | @call callee list named listed =>
            obtain ⟨text, _, rfl, _⟩ := Tree.text_of_name (follows callee (by simp)) named
            exact reads_call ((inside list (by simp)).arguments listed)
      · rintro ⟨⟩
        cases allowed with
        | @factor base fits => exact reads_factor_of ((inside base (by simp)).atom fits)
        | @power base exponent based raised =>
            exact reads_power ((inside base (by simp)).atom based)
              ((inside exponent (by simp)).factor raised)
      · rintro ⟨⟩
        cases allowed with
        | term chained =>
            exact reads_term chained fun tree member fits => (inside tree member).factor fits
      · rintro ⟨⟩
        cases allowed with
        | expr chained =>
            exact reads_expr chained fun tree member fits => (inside tree member).term fits
      · rintro ⟨⟩
        cases allowed with
        | arguments listed =>
            intro outer callee opening closing tokens closed spelled
            obtain ⟨all, leads, alike⟩ := reads_groups listed follows
              (fun tree member fits => (inside tree member).expr fits) []
              (by simpa using once rfl) closed spelled
            exact ⟨all, leads, Tree.alike_node alike⟩

/-- The groups of a parameter list are read one after the other, and the signature then ends. -/
theorem reads_parameters {pieces : List (Piece Tree)}
    (listed : Shape.Listed Tree.production ":" .identifier pieces)
    (shaped : ∀ tree, .tree tree ∈ pieces → tree.FollowsTable)
    (name kind opening : Token) {closing : Token} (items : List ListItem) {tokens : List Token}
    (closed : closing.kind = .rightParen)
    (spelled : Spells (Tree.pieceLexemes .parameters pieces) tokens) :
    ∃ all, Leads (.parameterDue ⟨name, kind, opening, items⟩) (tokens ++ [closing])
        (.signatureRead name (OpenSignature.finish ⟨name, kind, opening, all⟩ closing)) ∧
      Tree.AlikePieces (listPieces ":" all []) (listPieces ":" items pieces) := by
  induction listed generalizing items tokens with
  | none =>
      cases spelled
      exact ⟨items, .single fun _ => .closeSignature closed, rfl⟩
  | @last parameter declared named fits =>
      obtain ⟨text, location, rfl, _⟩ := Tree.text_of_name (shaped parameter (by simp)) named
      obtain ⟨kindText, kindLocation, rfl, _⟩ := Tree.text_of_name (shaped declared (by simp)) fits
      simp only [Tree.pieceLexemes, Tree.lexemes, Tree.leaf, Lexeme.ofToken, List.cons_append,
        List.nil_append] at spelled
      obtain ⟨nameToken, tokens, rfl, nameKind, nameText, spelled⟩ := Spells.name spelled
      obtain ⟨mark, tokens, rfl, markKind, _, spelled⟩ := spelled.symbol .colon rfl
      obtain ⟨kindToken, tokens, rfl, kindKind, kindSame, spelled⟩ := Spells.name spelled
      cases spelled
      refine ⟨_, .cons (fun _ => .parameterName nameKind) (.cons (fun _ => .parameterColon markKind)
        (.cons (fun _ => .parameterKind kindKind) (.single fun _ => .lastParameter closed))), ?_⟩
      refine alike_list_pieces items ?_
      exact Tree.alike_cons_tree (Tree.alike_name nameText location)
        (Tree.alike_cons_token (Tree.alike_cons_tree (Tree.alike_name kindSame kindLocation) rfl))
  | @next parameter declared rest named fits others induction =>
      obtain ⟨text, location, rfl, _⟩ := Tree.text_of_name (shaped parameter (by simp)) named
      obtain ⟨kindText, kindLocation, rfl, _⟩ := Tree.text_of_name (shaped declared (by simp)) fits
      simp only [Tree.pieceLexemes, Tree.lexemes, Tree.leaf, Lexeme.ofToken, List.cons_append,
        List.nil_append] at spelled
      obtain ⟨nameToken, tokens, rfl, nameKind, nameText, spelled⟩ := Spells.name spelled
      obtain ⟨mark, tokens, rfl, markKind, _, spelled⟩ := spelled.symbol .colon rfl
      obtain ⟨kindToken, tokens, rfl, kindKind, kindSame, spelled⟩ := Spells.name spelled
      obtain ⟨comma, tokens, rfl, commaKind, commaText, spelled⟩ :=
        spelled.symbol .comma rfl
      obtain ⟨all, restLeads, alike⟩ := induction
        (fun tree member => shaped tree (by simp [member]))
        (⟨nameToken, .ofToken .identifier kindToken, some comma⟩ :: items) spelled
      refine ⟨all, .cons (fun _ => .parameterName nameKind) (.cons (fun _ =>
        .parameterColon markKind) (.cons (fun _ => .parameterKind kindKind) (.cons (fun _ =>
        .parameterComma commaKind) restLeads))), alike.trans ?_⟩
      refine alike_list_pieces items ?_
      simp only [ListItem.pieces, Option.map_some, Option.toList_some, commaText]
      exact Tree.alike_cons_tree (Tree.alike_name nameText location) (Tree.alike_cons_token
        (Tree.alike_cons_tree (Tree.alike_name kindSame kindLocation) (Tree.alike_cons_token rfl)))

/-- At the beginning of a line the tokens of a statement lead to its end, which only the next token
makes known. -/
def ReadsStatement (tree : Tree) : Prop :=
  ∀ {tokens : List Token}, Spells tree.lexemes tokens →
    ∃ head chain atom, Reaches .start tokens ⟨head, [], chain⟩ atom ∧
      (head.finish (chain.finish atom)).Alike tree

/-- A statement is read if what stands before its expression is. -/
theorem reads_headed {tree value : Tree} {head : Head} (front : List Token) {back : List Token}
    (leads : Leads .start front (.atomDue (.start head))) (reads : ReadsExpr value)
    (spelled : Spells value.lexemes back)
    (finishes : ∀ other : Tree, other.Alike value → (head.finish other).Alike tree) :
    ∃ head chain atom, Reaches .start (front ++ back) ⟨head, [], chain⟩ atom ∧
      (head.finish (chain.finish atom)).Alike tree := by
  obtain ⟨chain, atom, ⟨next, valueLeads, read⟩, same⟩ := reads (.due (.start head)) spelled
  exact ⟨head, chain, atom, ⟨next, leads.append valueLeads, read⟩, finishes _ same⟩

theorem reads_signature {signature : Tree} (signed : signature.production = .signature)
    (shaped : signature.Everywhere Tree.FollowsTable) (name : Token) {tokens : List Token}
    (spelled : Spells signature.lexemes tokens) :
    ∃ other, Leads (.definition name) tokens (.signatureRead name other) ∧
      other.Alike signature := by
  obtain ⟨production, pieces, location⟩ := signature
  cases signed
  obtain ⟨allowed, shaped⟩ := Tree.everywhere_node.mp shaped
  cases allowed with
  | @signature kind list declared listed =>
      obtain ⟨kindText, kindLocation, rfl, _⟩ :=
        Tree.text_of_name (shaped kind (by simp) _ .whole) declared
      have listShaped := shaped list (by simp)
      obtain ⟨_, parameters, listLocation⟩ := list
      cases listed
      obtain ⟨listAllowed, listShaped⟩ := Tree.everywhere_node.mp listShaped
      cases listAllowed with
      | parameters groups =>
          simp only [Tree.lexemes, Tree.pieceLexemes, Tree.leaf, Lexeme.ofToken, List.cons_append,
            List.nil_append] at spelled
          obtain ⟨kindToken, tokens, rfl, kindKind, kindSame, spelled⟩ := Spells.name spelled
          obtain ⟨opening, tokens, rfl, opened, openingText, spelled⟩ :=
            spelled.symbol .leftParen rfl
          obtain ⟨front, back, rfl, before, after⟩ := spelled.split
          obtain ⟨closing, tokens, rfl, closed, closingText, rest⟩ :=
            after.symbol .rightParen rfl
          cases rest.eq_nil
          obtain ⟨all, leads, alike⟩ := reads_parameters groups
            (fun tree member => listShaped tree member tree .whole) name kindToken opening []
            closed before
          refine ⟨_, .cons (fun _ => .declared kindKind) (.cons (fun _ => .openSignature opened)
            leads), ?_⟩
          rw [OpenSignature.finish, openingText, closingText]
          exact Tree.alike_node (Tree.alike_cons_tree (Tree.alike_name kindSame kindLocation)
            (Tree.alike_cons_token (Tree.alike_cons_tree (Tree.alike_node alike) rfl)))

theorem reads_echo {value : Tree} {location : Location} (reads : ReadsExpr value) :
    ReadsStatement (.node .echo [.token "echo", .tree value] location) := by
  intro tokens spelled
  simp only [Tree.lexemes, Tree.pieceLexemes, Lexeme.ofToken, List.append_nil] at spelled
  obtain ⟨keyword, tokens, rfl, kind, text, spelled⟩ := spelled.symbol .echo rfl
  refine reads_headed [keyword] (.single fun _ => .echo kind) reads spelled fun other same => ?_
  rw [Head.finish, text]
  exact Tree.alike_node (Tree.alike_cons_token (Tree.alike_cons_tree same rfl))

theorem reads_define {text : String} {nameLocation location : Location} {value : Tree}
    (reads : ReadsExpr value) :
    ReadsStatement (.node .varDefine [.tree (.leaf .identifier text nameLocation), .token ":",
      .token "=", .tree value] location) := by
  intro tokens spelled
  simp only [Tree.lexemes, Tree.pieceLexemes, Tree.leaf, Lexeme.ofToken, List.cons_append,
    List.nil_append, List.append_nil] at spelled
  obtain ⟨name, tokens, rfl, nameKind, nameText, spelled⟩ := Spells.name spelled
  obtain ⟨colon, tokens, rfl, colonKind, _, spelled⟩ := spelled.symbol .colon rfl
  obtain ⟨equals, tokens, rfl, equalsKind, _, spelled⟩ := spelled.symbol .equals rfl
  refine reads_headed [name, colon, equals] (.cons (fun _ => .name nameKind)
    (.cons (fun _ => .colon colonKind) (.single fun _ => .define equalsKind)))
    reads spelled fun other same => ?_
  exact Tree.alike_node (Tree.alike_cons_tree (Tree.alike_name nameText nameLocation)
    (Tree.alike_cons_token (Tree.alike_cons_token (Tree.alike_cons_tree same rfl))))

theorem reads_define_as {text kindText : String} {nameLocation kindLocation location : Location}
    {value : Tree} (reads : ReadsExpr value) :
    ReadsStatement (.node .varDefine [.tree (.leaf .identifier text nameLocation), .token ":",
      .tree (.leaf .identifier kindText kindLocation), .token "=", .tree value] location) := by
  intro tokens spelled
  simp only [Tree.lexemes, Tree.pieceLexemes, Tree.leaf, Lexeme.ofToken, List.cons_append,
    List.nil_append, List.append_nil] at spelled
  obtain ⟨name, tokens, rfl, nameKind, nameText, spelled⟩ := Spells.name spelled
  obtain ⟨colon, tokens, rfl, colonKind, _, spelled⟩ := spelled.symbol .colon rfl
  obtain ⟨kind, tokens, rfl, kindKind, kindSame, spelled⟩ := Spells.name spelled
  obtain ⟨equals, tokens, rfl, equalsKind, _, spelled⟩ := spelled.symbol .equals rfl
  refine reads_headed [name, colon, kind, equals] (.cons (fun _ => .name nameKind)
    (.cons (fun _ => .colon colonKind) (.cons (fun _ => .declared kindKind)
      (.single fun _ => .defineAs equalsKind)))) reads spelled fun other same => ?_
  exact Tree.alike_node (Tree.alike_cons_tree (Tree.alike_name nameText nameLocation)
    (Tree.alike_cons_token (Tree.alike_cons_tree (Tree.alike_name kindSame kindLocation)
      (Tree.alike_cons_token (Tree.alike_cons_tree same rfl)))))

theorem reads_assign {text : String} {nameLocation location : Location} {value : Tree}
    (reads : ReadsExpr value) :
    ReadsStatement (.node .varAssign [.tree (.leaf .identifier text nameLocation), .token "=",
      .tree value] location) := by
  intro tokens spelled
  simp only [Tree.lexemes, Tree.pieceLexemes, Tree.leaf, Lexeme.ofToken, List.cons_append,
    List.nil_append, List.append_nil] at spelled
  obtain ⟨name, tokens, rfl, nameKind, nameText, spelled⟩ := Spells.name spelled
  obtain ⟨equals, tokens, rfl, equalsKind, _, spelled⟩ := spelled.symbol .equals rfl
  refine reads_headed [name, equals] (.cons (fun _ => .name nameKind)
    (.single fun _ => .assign equalsKind)) reads spelled fun other same => ?_
  exact Tree.alike_node (Tree.alike_cons_tree (Tree.alike_name nameText nameLocation)
    (Tree.alike_cons_token (Tree.alike_cons_tree same rfl)))

theorem reads_callable {text : String} {nameLocation location : Location} {signature body : Tree}
    (signed : signature.production = .signature) (shaped : signature.Everywhere Tree.FollowsTable)
    (reads : ReadsExpr body) :
    ReadsStatement (.node .callableDefine [.tree (.leaf .identifier text nameLocation),
      .token ":", .tree signature, .token "=", .tree body] location) := by
  intro tokens spelled
  simp only [Tree.lexemes, Tree.pieceLexemes, Tree.leaf, Lexeme.ofToken, List.cons_append,
    List.nil_append, List.append_nil] at spelled
  obtain ⟨name, tokens, rfl, nameKind, nameText, spelled⟩ := Spells.name spelled
  obtain ⟨colon, tokens, rfl, colonKind, _, spelled⟩ := spelled.symbol .colon rfl
  obtain ⟨front, back, rfl, before, after⟩ := spelled.split
  obtain ⟨equals, tokens, rfl, equalsKind, _, spelled⟩ := after.symbol .equals rfl
  obtain ⟨read, leads, alike⟩ := reads_signature signed shaped name before
  have headLeads : Leads .start (name :: colon :: (front ++ [equals])) _ :=
    .cons (fun _ => .name nameKind) (.cons (fun _ => .colon colonKind)
      (leads.append (.single fun _ => .defineCallable equalsKind)))
  have whole : name :: colon :: (front ++ equals :: tokens) =
      name :: colon :: (front ++ [equals]) ++ tokens := by simp
  rw [whole]
  refine reads_headed _ headLeads reads spelled fun other same => ?_
  exact Tree.alike_node (Tree.alike_cons_tree (Tree.alike_name nameText nameLocation)
    (Tree.alike_cons_token (Tree.alike_cons_tree alike (Tree.alike_cons_token
      (Tree.alike_cons_tree same rfl)))))

/-- Every statement is read. -/
theorem reads_statement {tree : Tree} (statement : tree.IsStatement)
    (other : tree.production ≠ .newline) : ReadsStatement tree := by
  obtain ⟨production, pieces, location⟩ := tree
  obtain ⟨allowed, shaped⟩ := Tree.everywhere_node.mp statement.wellFormed.shaped
  obtain ⟨_, distinct⟩ := Tree.everywhere_node.mp statement.wellFormed.distinct
  have reads : ∀ value, .tree value ∈ pieces → value.production = .expr → ReadsExpr value :=
    fun value member => (readable ⟨shaped value member, distinct value member⟩).expr
  have follows : ∀ tree, .tree tree ∈ pieces → tree.FollowsTable := fun tree member =>
    shaped tree member tree .whole
  have topLevel := statement.topLevel
  simp only [Tree.production, List.mem_cons, List.not_mem_nil, or_false] at topLevel
  intro tokens spelled
  rcases topLevel with rfl | rfl | rfl | rfl | rfl | rfl
  · exact absurd rfl other
  · cases allowed with
    | @echo value valued => exact reads_echo (reads value (by simp) valued) spelled
  · cases allowed with
    | @define name value named valued =>
        obtain ⟨text, _, rfl, _⟩ := Tree.text_of_name (follows name (by simp)) named
        exact reads_define (reads value (by simp) valued) spelled
    | @defineAs name kind value named declared valued =>
        obtain ⟨text, _, rfl, _⟩ := Tree.text_of_name (follows name (by simp)) named
        obtain ⟨kindText, _, rfl, _⟩ := Tree.text_of_name (follows kind (by simp)) declared
        exact reads_define_as (reads value (by simp) valued) spelled
  · cases allowed with
    | @assign name value named valued =>
        obtain ⟨text, _, rfl, _⟩ := Tree.text_of_name (follows name (by simp)) named
        exact reads_assign (reads value (by simp) valued) spelled
  · cases allowed with
    | @defineCallable name signature body named signed valued =>
        obtain ⟨text, _, rfl, _⟩ := Tree.text_of_name (follows name (by simp)) named
        exact reads_callable signed (shaped signature (by simp)) (reads body (by simp) valued)
          spelled
  · obtain ⟨chain, atom, reaches, same⟩ :=
      (readable statement.wellFormed).expr rfl AtomBegins.bare spelled
    exact ⟨.bare, chain, atom, reaches, same⟩

/-- The line may end here, and then leaves these trees behind. -/
inductive MayEnd : Reading → List Tree → Prop where
  | empty (finished : List Tree) : MayEnd ⟨finished, .start⟩ finished
  | statement (finished : List Tree) {stage : Stage} {head : Head} {chain : Chain} {atom : Tree}
      (read : AtomRead stage ⟨head, [], chain⟩ atom) :
      MayEnd ⟨finished, stage⟩ (head.finish (chain.finish atom) :: finished)

theorem may_end_newline {reading : Reading} {trees : List Tree} {token : Token}
    (mayEnd : MayEnd reading trees) (kind : token.kind = .newline) :
    Takes reading token ⟨.ofToken .newline token :: trees, .start⟩ := by
  cases mayEnd with
  | empty => exact .newline kind
  | statement _ read => exact .endLine read kind

theorem may_end_stop {reading : Reading} {trees : List Tree} {token : Token}
    (mayEnd : MayEnd reading trees) (kind : token.kind = .eof) :
    Takes reading token ⟨trees, .start⟩ := by
  cases mayEnd with
  | empty => exact .stop kind
  | statement _ read => exact .endProgram read kind

/-- The tokens of the trees that a line may go on with, and the end of input after them, are read
to the end, and the trees are the given ones after those before. -/
theorem reads_forest {forest : List Tree} (statements : ∀ tree ∈ forest, tree.IsStatement)
    (separated : forest.IsChain Tree.Apart) {reading : Reading} {trees : List Tree}
    (mayEnd : MayEnd reading trees)
    (goesOn : ∀ first ∈ forest.head?, first.production = .newline ∨ reading.stage = .start)
    {tokens : List Token} {stop : Token} (ends : stop.kind = .eof)
    (spelled : Spells (Tree.forestLexemes forest) tokens) :
    ∃ last, reading.run (tokens ++ [stop]) = .ok last ∧
      last.finished.map Tree.unlocated = (forest.reverse ++ trees).map Tree.unlocated := by
  induction forest generalizing reading trees tokens with
  | nil =>
      cases spelled
      exact ⟨⟨trees, .start⟩, run_of_takes (may_end_stop mayEnd ends), rfl⟩
  | cons tree forest induction =>
      have others : ∀ tree ∈ forest, tree.IsStatement := fun other member =>
        statements other (by simp [member])
      obtain ⟨front, back, rfl, before, after⟩ := Spells.split spelled
      have here := statements tree (by simp)
      by_cases newline : tree.production = .newline
      · obtain ⟨production, pieces, location⟩ := tree
        cases newline
        obtain ⟨allowed, _⟩ := Tree.everywhere_node.mp here.wellFormed.shaped
        cases allowed with
        | newline =>
            obtain ⟨token, tokens, rfl, kind, text, rest⟩ := before.symbol .newline rfl
            cases rest.eq_nil
            obtain ⟨last, ran, same⟩ := induction others separated.tail
              (.empty (.ofToken .newline token :: trees)) (fun _ _ => .inr rfl) after
            refine ⟨last, ?_, ?_⟩
            · rw [List.singleton_append, List.cons_append,
                run_of_takes (may_end_newline mayEnd kind)]
              exact ran
            · rw [same, Tree.ofToken, text]
              simp [Tree.leaf]
      · obtain ⟨finished, stage⟩ := reading
        obtain rfl : stage = .start := (goesOn tree rfl).resolve_left newline
        obtain ⟨head, chain, atom, ⟨next, leads, read⟩, alike⟩ :=
          reads_statement here newline before
        have ended : ∀ first ∈ forest.head?, first.production = .newline ∨ next = .start := by
          intro first member
          cases forest with
          | nil => cases member
          | cons second forest =>
              cases member
              exact .inl ((List.isChain_cons_cons.mp separated).1.resolve_left newline)
        obtain ⟨last, ran, same⟩ := induction others separated.tail
          (.statement finished read) ended after
        obtain rfl : finished = trees := by
          cases mayEnd with
          | empty => rfl
          | statement _ read =>
              cases read with
              | name read => cases read
        refine ⟨last, ?_, ?_⟩
        · rw [List.append_assoc, run_append, leads finished]
          exact ran
        · rw [same, List.map_append, List.map_cons, alike]
          simp

end Reading

/-- Tokens that spell a program, with the end of input after them, are read as that program. -/
theorem parse_tokens_spelled {forest : List Tree} (program : IsProgram forest) {body : List Token}
    {stop : Token} (ends : stop.kind = .eof) (spelled : Spells (Tree.forestLexemes forest) body) :
    ∃ parsed, parseTokens (body ++ [stop]) = .ok parsed ∧
      parsed.map Tree.unlocated = forest.map Tree.unlocated := by
  have statements : ∀ tree ∈ forest, tree.IsStatement := fun tree member =>
    ⟨program.topLevel tree member, program.shaped tree member, program.distinct tree member⟩
  obtain ⟨last, ran, same⟩ := Reading.reads_forest statements program.separated (.empty [])
    (fun _ _ => .inr rfl) ends spelled
  refine ⟨last.finished.reverse, ?_, ?_⟩
  · rw [parseTokens, Reading.start, ran]
    rfl
  · rw [List.map_reverse, same, List.append_nil, List.map_reverse, List.reverse_reverse]

/-- A text whose tokens spell a program parses, to trees of the same structure. -/
theorem parse_of_spelled_program {forest : List Tree} (program : IsProgram forest)
    {source : String} {body : List Token} {stop : Token}
    (scanned : tokens source = .ok (body ++ [stop]))
    (spelled : Spells (Tree.forestLexemes forest) body) :
    ∃ parsed, parse source = .ok parsed ∧
      List.Forall₂ (fun tree given => tree.sameStructure given = true) parsed forest := by
  have ends := last_is_end scanned
  obtain ⟨parsed, ran, same⟩ := parse_tokens_spelled program ends spelled
  refine ⟨parsed, parse_eq_ok_iff.mpr ⟨_, scanned, ran⟩, ?_⟩
  · have alike : List.Forall₂ (· = ·) (parsed.map Tree.unlocated) (forest.map Tree.unlocated) := by
      rw [same]
      exact List.forall₂_refl _
    rw [List.forall₂_map_left_iff, List.forall₂_map_right_iff] at alike
    exact alike.imp fun tree given => (Tree.same_structure_iff tree given).mpr

/-- A product of a signed number and a variable. -/
theorem parse_of_spelled_product :
    let product : Tree := .node .expr [.tree (.node .term
      [.tree (.factorOf (.atomOf (.leaf .intLiteral "-1" .unknown))), .token "*",
        .tree (.factorOf (.atomOf (.leaf .identifier "x" .unknown)))] .unknown)] .unknown
    IsProgram [product] ∧ ∃ body stop, tokens "-1 * x" = .ok (body ++ [stop]) ∧
      Spells (Tree.forestLexemes [product]) body ∧ ∃ parsed, parse "-1 * x" = .ok parsed ∧
      List.Forall₂ (fun tree given => tree.sameStructure given = true) parsed [product] := by
  intro product
  have number : (Tree.leaf .intLiteral "-1" .unknown).Is .intLiteral :=
    Tree.is_node _ (.intLiteral ⟨['-'], ['1'], rfl, .inr (.inr rfl), by simp,
      List.all_eq_true.mp rfl⟩) (by simp) (by simp)
  have name : (Tree.leaf .identifier "x" .unknown).Is .identifier :=
    Tree.is_node _ (.identifier ⟨⟨'x', [], rfl, by decide, by simp⟩, by decide⟩) (by simp) (by simp)
  have numberFactor := Tree.is_factor_of (Tree.is_atom_of number (by simp))
  have nameFactor := Tree.is_factor_of (Tree.is_atom_of name (by simp))
  have chained : Shape.Chained Tree.production .factor ["*", "/"]
      [.tree _, .token "*", .tree _] :=
    .next numberFactor.produced (by simp) (.last nameFactor.produced)
  have term := Tree.is_node .unknown (.term chained)
    (by simpa using ⟨numberFactor.wellFormed, nameFactor.wellFormed⟩) (by simp)
  have is : product.Is .expr := Tree.is_node _ (.expr (.last term.produced))
    (by simpa using term.wellFormed) (by simp)
  have program : IsProgram [product] := by
    refine ⟨?_, .singleton _, ?_, ?_⟩
    · simp [is.produced]
    · simpa using is.wellFormed.shaped
    · simpa using is.wellFormed.distinct
  obtain ⟨body, stop, scanned, spelled⟩ : ∃ body stop, tokens "-1 * x" = .ok (body ++ [stop]) ∧
      Spells (Tree.forestLexemes [product]) body :=
    ⟨[_, _, _, _], _, rfl, .signed rfl rfl rfl (.plain rfl (.plain rfl .nil))⟩
  exact ⟨program, body, stop, scanned, spelled,
    parse_of_spelled_program program scanned spelled⟩

end Reckon
