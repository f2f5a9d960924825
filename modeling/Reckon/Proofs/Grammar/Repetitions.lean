import Reckon.Proofs.Grammar.OpenNames

/-!
Arguments that are given twice. The tokens of a tree are read unless an argument list among them
gives a name twice; then the first such list that closes is blamed, for the first name that is met
again. The induction is on the tree, and what becomes of several parts in a row follows from what
becomes of each.
-/

namespace Reckon

namespace Reading

/-- The tokens are refused for a name that is given twice. -/
def Fails (stage : Stage) (tokens : List Token) (name : Token) : Prop :=
  ∀ finished, Reading.run ⟨finished, stage⟩ tokens =
    .error (.repeatedArgument name.text name.location)

/-- The tokens lead to a stage that is wanted, or are refused for the name. -/
def Decides (stage : Stage) (tokens : List Token) (wanted : Stage → Prop) : Option Token → Prop
  | none => ∃ next, Leads stage tokens next ∧ wanted next
  | some name => Fails stage tokens name

/-- The tokens are read, or refused for the name. -/
def Ends (reading : Reading) (tokens : List Token) : Option Token → Prop
  | none => ∃ last, reading.run tokens = .ok last
  | some name => reading.run tokens = .error (.repeatedArgument name.text name.location)

section

variable {stage middle : Stage} {token : Token} {tokens others : List Token} {name : Token}
  {wanted goal : Stage → Prop} {again later : Option Token}

theorem Fails.append (fails : Fails stage tokens name) (others : List Token) :
    Fails stage (tokens ++ others) name := by
  intro finished
  rw [run_append, fails finished]
  rfl

theorem Leads.fails (leads : Leads stage tokens middle) (fails : Fails middle others name) :
    Fails stage (tokens ++ others) name := by
  intro finished
  rw [run_append, leads finished]
  exact fails finished

theorem Decides.here (here : wanted stage) : Decides stage [] wanted none := ⟨stage, .here, here⟩

/-- What comes later is not reached if a name has been refused. -/
theorem Decides.append (first : Decides stage tokens wanted again)
    (rest : ∀ next, wanted next → Decides next others goal later) :
    Decides stage (tokens ++ others) goal (again.or later) := by
  cases again with
  | some name => exact first.append others
  | none =>
      obtain ⟨middle, leads, reached⟩ := first
      have after := rest middle reached
      cases later with
      | some name => exact leads.fails after
      | none =>
          obtain ⟨next, behind, arrived⟩ := after
          exact ⟨next, leads.append behind, arrived⟩

theorem Decides.imp (decides : Decides stage tokens wanted again)
    (implies : ∀ next, wanted next → goal next) : Decides stage tokens goal again := by
  cases again with
  | some name => exact decides
  | none =>
      obtain ⟨next, leads, reached⟩ := decides
      exact ⟨next, leads, implies next reached⟩

theorem Decides.ends {finished : List Tree} (first : Decides stage tokens wanted again)
    (rest : ∀ next, wanted next → Ends ⟨finished, next⟩ others later) :
    Ends ⟨finished, stage⟩ (tokens ++ others) (again.or later) := by
  cases again with
  | some name => exact Fails.append first others finished
  | none =>
      obtain ⟨next, leads, reached⟩ := first
      have after := rest next reached
      rw [Option.none_or]
      cases later with
      | some name =>
          rw [Ends, run_append, leads finished]
          exact after
      | none =>
          obtain ⟨last, ran⟩ := after
          refine ⟨last, ?_⟩
          rw [run_append, leads finished]
          exact ran

theorem Ends.cons {reading after : Reading} (takes : Takes reading token after)
    (rest : after.Ends tokens again) : reading.Ends (token :: tokens) again := by
  have ran : reading.run (token :: tokens) = after.run tokens := run_of_takes takes
  cases again with
  | none =>
      obtain ⟨last, finished⟩ := rest
      exact ⟨last, ran.trans finished⟩
  | some name => exact ran.trans rest

theorem Decides.cons (takes : ∀ finished, Takes ⟨finished, stage⟩ token ⟨finished, middle⟩)
    (rest : Decides middle tokens wanted again) : Decides stage (token :: tokens) wanted again := by
  have first : Decides stage [token] (· = middle) none := ⟨middle, .single takes, rfl⟩
  exact first.append fun next same => same ▸ rest

theorem Decides.single (takes : ∀ finished, Takes ⟨finished, stage⟩ token ⟨finished, middle⟩)
    (here : wanted middle) : Decides stage [token] wanted none := .cons takes (.here here)

end

/-- An atom has been read, and what stands around its expression is as given. -/
def HasRead (head : Head) (openings : List Opening) (stage : Stage) : Prop :=
  ∃ chain atom, AtomRead stage ⟨head, openings, chain⟩ atom

/-- Where an atom is due the tokens of the tree are read, unless a name is given twice. -/
def DecidesTree (tree : Tree) : Prop :=
  ∀ {stage : Stage} {head : Head} {openings : List Opening} {chain : Chain} {start : Nat}
    {tokens : List Token}, AtomBegins stage ⟨head, openings, chain⟩ → Spells tree.lexemes tokens →
    Decides stage tokens (HasRead head openings) (firstAgain? (tree.argumentLists start tokens))

/-- Behind the opening parenthesis of a call the tokens of a list and a parenthesis after them are
read, unless a name is given twice. -/
def DecidesList (tree : Tree) : Prop :=
  ∀ (head : Head) (openings : List Opening) (chain : Chain) (callee opening : Token)
    {closing : Token} {start : Nat} {tokens : List Token}, closing.kind = .rightParen →
    Spells tree.lexemes tokens →
    Decides (.argumentDue ⟨head, openings, chain⟩ ⟨callee, opening, []⟩) (tokens ++ [closing])
      (HasRead head openings) (firstAgain? (tree.argumentLists start tokens))

/-- An operator makes another atom due in the same expression. -/
theorem goes_on {stage : Stage} {head : Head} {openings : List Opening} {token : Token}
    (read : HasRead head openings stage)
    (operator : token.kind ∈ [.caret, .star, .slash, .plus, .minus]) :
    ∃ chain, ∀ finished, Takes ⟨finished, stage⟩ token
      ⟨finished, .atomDue ⟨head, openings, chain⟩⟩ := by
  obtain ⟨chain, atom, read⟩ := read
  simp only [List.mem_cons, List.not_mem_nil, or_false] at operator
  rcases operator with kind | kind | kind | kind | kind
  · exact ⟨_, fun _ => .caret read kind⟩
  · exact ⟨_, fun _ => .multiplicative read (.inl kind)⟩
  · exact ⟨_, fun _ => .multiplicative read (.inr kind)⟩
  · exact ⟨_, fun _ => .additive read (.inl kind)⟩
  · exact ⟨_, fun _ => .additive read (.inr kind)⟩

/-- A chain of operands. -/
theorem decides_chain {production operand : Production} {signs : List String}
    {pieces : List (Piece Tree)} (chained : Shape.Chained Tree.production operand signs pieces)
    (symbols : ∀ text, Lexeme.ofToken production text = .symbol text)
    (operators : ∀ sign ∈ signs,
      (Word.ofSymbol sign).kind ∈ [.caret, .star, .slash, .plus, .minus])
    (operands : ∀ tree, .tree tree ∈ pieces → DecidesTree tree)
    {stage : Stage} {head : Head} {openings : List Opening} {chain : Chain} {start : Nat}
    {tokens : List Token} (begins : AtomBegins stage ⟨head, openings, chain⟩)
    (spelled : Spells (Tree.pieceLexemes production pieces) tokens) :
    Decides stage tokens (HasRead head openings)
      (firstAgain? (Tree.pieceLists production start tokens pieces)) := by
  induction chained generalizing stage chain start tokens with
  | @last tree _ =>
      rw [Tree.pieceLexemes, Tree.pieceLexemes, List.append_nil] at spelled
      rw [Tree.piece_lists_last production spelled]
      exact operands tree (by simp) begins spelled
  | @next tree sign rest _ allowed _ induction =>
      obtain ⟨front, back, rfl, before, after⟩ := Tree.spelled_tree spelled
      obtain ⟨operator, behind, rfl, word, others⟩ := Tree.spelled_token after
      rw [Tree.piece_lists_tree production before, Tree.piece_lists_token word,
        first_again_append]
      refine (operands tree (by simp) begins before).append fun next read => ?_
      rw [symbols] at word
      obtain ⟨token, none, rfl, kind, _, nothing⟩ := word.uncons
      cases nothing
      obtain ⟨chain, takes⟩ := goes_on read (kind ▸ operators sign allowed)
      exact .cons takes (induction (fun other member => operands other (by simp [member]))
        (.due ⟨head, openings, chain⟩) others)

/-- A call without another argument ends, or one of its names is blamed. -/
theorem decides_end_of_list {inside : Inside} (call : OpenCall) {closing : Token}
    (closed : closing.kind = .rightParen) :
    Decides (.argumentDue inside call) [closing] (HasRead inside.head inside.openings)
      call.repeated? := by
  cases repeated : call.repeated? with
  | none => exact .single (fun _ => .closeCall closed repeated) ⟨_, _, .whole ..⟩
  | some name =>
      intro finished
      have refused : step ⟨finished, .argumentDue inside call⟩ closing =
          .error (.repeatedArgument name.text name.location) := by
        simp [step, closed, closeCall, repeated]
      rw [run_cons, refused]
      rfl

/-- A call ends behind its last argument, or one of its names is blamed. -/
theorem decides_end_of_argument {stage : Stage} {head : Head} {openings : List Opening}
    {call : OpenCall} {name : Token} {around : Chain} {closing : Token}
    (closed : closing.kind = .rightParen)
    (read : HasRead head (.argument call name around :: openings) stage) :
    Decides stage [closing] (HasRead head openings)
      (firstRepeated [] (call.arguments.reverse.map (·.name) ++ [name])) := by
  obtain ⟨chain, atom, read⟩ := read
  let whole : OpenCall :=
    { call with arguments := ⟨name, chain.finish atom, none⟩ :: call.arguments }
  have names : firstRepeated [] (call.arguments.reverse.map (·.name) ++ [name]) =
      whole.repeated? := by
    simp [whole, OpenCall.repeated?]
  rw [names]
  cases repeated : whole.repeated? with
  | none => exact .single (fun _ => .lastArgument read closed repeated) ⟨_, _, .whole ..⟩
  | some again =>
      intro finished
      have refused : step ⟨finished, stage⟩ closing =
          .error (.repeatedArgument again.text again.location) := by
        rw [step_after_atom read (by simp [closed])]
        simp only [afterAtom, closed, closeExpr, closeCall]
        rw [if_neg (by decide), repeated]
      rw [run_cons, refused]
      rfl

/-- The groups of an argument list. What closes inside them comes first, and then the names in them
and in the groups before. -/
theorem decides_groups {pieces : List (Piece Tree)}
    (listed : Shape.Listed Tree.production "=" .expr pieces)
    (follows : ∀ tree, .tree tree ∈ pieces → tree.FollowsTable)
    (values : ∀ tree, .tree tree ∈ pieces → tree.production = .expr → DecidesTree tree)
    {head : Head} {openings : List Opening} {chain : Chain} {callee opening closing : Token}
    (items : List ListItem) {start : Nat} {tokens : List Token}
    (closed : closing.kind = .rightParen)
    (spelled : Spells (Tree.pieceLexemes .arguments pieces) tokens) :
    Decides (.argumentDue ⟨head, openings, chain⟩ ⟨callee, opening, items⟩) (tokens ++ [closing])
      (HasRead head openings)
      ((firstAgain? (Tree.pieceLists .arguments start tokens pieces)).or
        (firstRepeated [] (items.reverse.map (·.name) ++
          Tree.nameTokens .arguments pieces tokens))) := by
  induction listed generalizing items start tokens with
  | none =>
      cases spelled
      rw [Tree.nameTokens, List.append_nil]
      exact decides_end_of_list ⟨callee, opening, items⟩ closed
  | @last name value named fits =>
      obtain ⟨text, location, rfl, _⟩ := Tree.text_of_name (follows name (by simp)) named
      simp only [Tree.pieceLexemes, Tree.lexemes, Tree.leaf, Lexeme.ofToken, List.cons_append,
        List.nil_append, List.append_nil] at spelled
      obtain ⟨nameToken, tokens, rfl, nameKind, _, afterName⟩ := Spells.name spelled
      obtain ⟨mark, tokens, rfl, markKind, _, spelled⟩ := afterName.symbol .equals rfl
      have names := @Tree.name_tokens_value value fits [] tokens spelled []
      rw [List.append_nil, Tree.nameTokens] at names
      rw [Tree.piece_lists_group, Tree.name_tokens_group, Tree.piece_lists_last _ spelled, names]
      refine .cons (fun _ => .argumentName nameKind) (.cons (fun _ => .argumentEquals markKind) ?_)
      exact (values value (by simp) fits (.due _) spelled).append fun _ read =>
        decides_end_of_argument closed read
  | @next name value rest named fits others induction =>
      obtain ⟨text, location, rfl, _⟩ := Tree.text_of_name (follows name (by simp)) named
      simp only [Tree.pieceLexemes, Tree.lexemes, Tree.leaf, Lexeme.ofToken, List.cons_append,
        List.nil_append] at spelled
      obtain ⟨nameToken, tokens, rfl, nameKind, _, afterName⟩ := Spells.name spelled
      obtain ⟨mark, tokens, rfl, markKind, _, spelled⟩ := afterName.symbol .equals rfl
      obtain ⟨front, back, rfl, before, after⟩ := spelled.split
      obtain ⟨comma, tokens, rfl, commaKind, _, spelled⟩ := after.symbol .comma rfl
      have behind : Tree.pieceLists .arguments (start + 1 + 1 + front.length) (comma :: tokens)
          (.token "," :: rest) =
            Tree.pieceLists .arguments (start + 1 + 1 + front.length + 1) tokens rest := rfl
      have names : Tree.nameTokens .arguments (.token "," :: rest) (comma :: tokens) =
          Tree.nameTokens .arguments rest tokens := rfl
      rw [Tree.piece_lists_group, Tree.name_tokens_group, Tree.piece_lists_tree _ before,
        Tree.name_tokens_value fits before, behind, names, first_again_append, Option.or_assoc,
        List.cons_append, List.cons_append, List.append_assoc]
      refine .cons (fun _ => .argumentName nameKind) (.cons (fun _ => .argumentEquals markKind) ?_)
      refine (values value (by simp) fits (.due _) before).append ?_
      rintro next ⟨valueChain, atom, read⟩
      refine .cons (fun _ => .argumentComma read commaKind) ?_
      have later := @induction (fun tree member => follows tree (by simp [member]))
        (fun tree member => values tree (by simp [member]))
        (⟨nameToken, valueChain.finish atom, some comma⟩ :: items)
        (start + 1 + 1 + front.length + 1) tokens spelled
      rw [List.reverse_cons, List.map_append, List.append_assoc] at later
      exact later

theorem decides_group {inner : Tree} {location : Location} (decides : DecidesTree inner) :
    DecidesTree (.node .atom [.token "(", .tree inner, .token ")"] location) := by
  intro stage head openings chain start tokens begins spelled
  simp only [Tree.lexemes, Tree.pieceLexemes, Lexeme.ofToken] at spelled
  obtain ⟨opening, tokens, rfl, opened, _, spelled⟩ := spelled.symbol .leftParen rfl
  obtain ⟨front, back, rfl, before, after⟩ := spelled.split
  obtain ⟨closing, tokens, rfl, closed, _, rest⟩ := after.symbol .rightParen rfl
  cases rest.eq_nil
  have lists : Tree.argumentLists start (opening :: (front ++ [closing]))
      (.node .atom [.token "(", .tree inner, .token ")"] location) =
        inner.argumentLists (start + 1) front := by
    rw [Tree.lists_of_node (by decide)]
    change Tree.pieceLists .atom (start + 1) (front ++ [closing]) [.tree inner, .token ")"] = _
    rw [Tree.piece_lists_tree _ before]
    exact List.append_nil _
  rw [lists, ← Option.or_none (o := firstAgain? _)]
  refine .cons (fun _ => .openGroup begins opened) ((decides (.due _) before).append ?_)
  rintro next ⟨chain, atom, read⟩
  exact .single (fun _ => .closeGroup read closed) ⟨_, _, .whole ..⟩

theorem decides_call {text : String} {location outer : Location} {list : Tree}
    (decides : DecidesList list) :
    DecidesTree (.node .call
      [.tree (.leaf .identifier text location), .token "(", .tree list, .token ")"] outer) := by
  intro stage head openings chain start tokens begins spelled
  simp only [Tree.lexemes, Tree.pieceLexemes, Tree.leaf, Lexeme.ofToken, List.cons_append,
    List.nil_append] at spelled
  obtain ⟨callee, tokens, rfl, named, _, spelled⟩ := Spells.name spelled
  obtain ⟨opening, tokens, rfl, opened, _, spelled⟩ := spelled.symbol .leftParen rfl
  obtain ⟨front, back, rfl, before, after⟩ := spelled.split
  obtain ⟨closing, tokens, rfl, closed, _, rest⟩ := after.symbol .rightParen rfl
  cases rest.eq_nil
  have lists : Tree.argumentLists start (callee :: opening :: (front ++ [closing]))
      (.node .call [.tree (.leaf .identifier text location), .token "(", .tree list, .token ")"]
        outer) = list.argumentLists (start + 1 + 1) front := by
    rw [Tree.lists_of_node (by decide)]
    change Tree.pieceLists .call (start + 1 + 1) (front ++ [closing]) [.tree list, .token ")"] = _
    rw [Tree.piece_lists_tree _ before]
    exact List.append_nil _
  obtain ⟨next, leads, read⟩ := leads_name begins named
  have first : Decides stage [callee] (NameRead · ⟨head, openings, chain⟩ callee) none :=
    ⟨next, leads, read⟩
  rw [lists]
  exact first.append fun next read => .cons (fun _ => .openCall read opened)
    (decides head openings chain callee opening closed before)

theorem decides_power {base exponent : Tree} {location : Location} (decides : DecidesTree base)
    (raised : DecidesTree exponent) :
    DecidesTree (.node .factor [.tree base, .token "^", .tree exponent] location) := by
  intro stage head openings chain start tokens begins spelled
  simp only [Tree.lexemes, Tree.pieceLexemes, Lexeme.ofToken, List.append_nil] at spelled
  obtain ⟨front, back, rfl, before, after⟩ := spelled.split
  obtain ⟨caret, tokens, rfl, kind, _, rest⟩ := after.symbol .caret rfl
  have lists : Tree.argumentLists start (front ++ caret :: tokens)
      (.node .factor [.tree base, .token "^", .tree exponent] location) =
        base.argumentLists start front ++
          exponent.argumentLists (start + front.length + 1) tokens := by
    rw [Tree.lists_of_node (by decide), Tree.piece_lists_tree _ before]
    exact congrArg _ (Tree.piece_lists_last _ rest _)
  rw [lists, first_again_append]
  refine (decides begins before).append fun next read => ?_
  have operator : caret.kind ∈ [.caret, .star, .slash, .plus, .minus] := by
    rw [kind]
    decide
  obtain ⟨chain, takes⟩ := goes_on read operator
  exact .cons takes (raised (.due _) rest)

theorem decides_of_reaches {stage : Stage} {head : Head} {openings : List Opening} {chain : Chain}
    {tokens : List Token} {atom : Tree}
    (reaches : Reaches stage tokens ⟨head, openings, chain⟩ atom) :
    Decides stage tokens (HasRead head openings) none := by
  obtain ⟨next, leads, read⟩ := reaches
  exact ⟨next, leads, chain, atom, read⟩

/-- A tree with one piece that is a tree is decided as that is. -/
theorem decides_single {production : Production} {inner : Tree} {location : Location}
    (outside : production ≠ .arguments) (decides : DecidesTree inner) :
    DecidesTree (.node production [.tree inner] location) := by
  intro stage head openings chain start tokens begins spelled
  rw [Tree.lexemes, Tree.pieceLexemes, Tree.pieceLexemes, List.append_nil] at spelled
  rw [Tree.lists_of_node outside, Tree.piece_lists_last _ spelled]
  exact decides begins spelled

theorem decides_operands {production operand : Production} {signs : List String}
    {pieces : List (Piece Tree)} {location : Location} (outside : production ≠ .arguments)
    (chained : Shape.Chained Tree.production operand signs pieces)
    (symbols : ∀ text, Lexeme.ofToken production text = .symbol text)
    (operators : ∀ sign ∈ signs,
      (Word.ofSymbol sign).kind ∈ [.caret, .star, .slash, .plus, .minus])
    (operands : ∀ tree, .tree tree ∈ pieces → DecidesTree tree) :
    DecidesTree (.node production pieces location) := by
  intro stage head openings chain start tokens begins spelled
  rw [Tree.lists_of_node outside]
  exact decides_chain chained symbols operators operands begins spelled

/-- Every expression and every part of one is read, unless a name is given twice. -/
theorem decides {tree : Tree} (shaped : tree.Everywhere Tree.FollowsTable) :
    (tree.production ∈ [.atom, .call, .factor, .term, .expr] → DecidesTree tree) ∧
      (tree.production = .arguments → DecidesList tree) := by
  induction tree with
  | node production pieces location induction =>
      obtain ⟨allowed, within⟩ := Tree.everywhere_node.mp shaped
      have follows : ∀ tree, .tree tree ∈ pieces → tree.FollowsTable := fun tree member =>
        within tree member tree .whole
      have inside : ∀ tree, .tree tree ∈ pieces →
          tree.production ∈ [.atom, .call, .factor, .term, .expr] → DecidesTree tree :=
        fun tree member => (induction tree member (within tree member)).1
      constructor
      · intro produced
        simp only [Tree.production, List.mem_cons, List.not_mem_nil, or_false] at produced
        rcases produced with rfl | rfl | rfl | rfl | rfl
        · cases allowed with
          | @simple inner fits =>
              have table := follows inner (by simp)
              have called := inside inner (by simp)
              obtain ⟨innerProduction, innerPieces, innerLocation⟩ := inner
              simp only [Tree.production, List.mem_cons, List.not_mem_nil, or_false] at fits
              rcases fits with rfl | rfl | rfl | rfl
              · exact @decides_single .atom _ location (by decide)
                  (called (by simp [Tree.production]))
              · cases table with
                | intLiteral read =>
                    intro stage head openings chain start tokens begins spelled
                    obtain ⟨atom, reaches, _⟩ := @reaches_number .int .intLiteral _ _ stage _
                      tokens innerLocation .int read Scan.first_of_digits begins spelled
                    exact decides_of_reaches reaches
              · cases table with
                | numLiteral read =>
                    intro stage head openings chain start tokens begins spelled
                    obtain ⟨atom, reaches, _⟩ := @reaches_number .num .numLiteral _ _ stage _
                      tokens innerLocation .num read Scan.first_of_real begins spelled
                    exact decides_of_reaches reaches
              · cases table with
                | identifier =>
                    intro stage head openings chain start tokens begins spelled
                    obtain ⟨atom, reaches, _⟩ := reads_name begins spelled
                    exact decides_of_reaches reaches
          | @group inner fits =>
              exact decides_group (inside inner (by simp) (by rw [fits]; decide))
        · cases allowed with
          | @call callee list named listed =>
              obtain ⟨text, _, rfl, _⟩ := Tree.text_of_name (follows callee (by simp)) named
              exact decides_call ((induction list (by simp) (within list (by simp))).2 listed)
        · cases allowed with
          | @factor base fits =>
              exact decides_single (by decide) (inside base (by simp) (by rw [fits]; decide))
          | @power base exponent based raised =>
              exact decides_power (inside base (by simp) (by rw [based]; decide))
                (inside exponent (by simp) (by rw [raised]; decide))
        · cases allowed with
          | term chained =>
              refine decides_operands (by decide) chained (fun _ => rfl) (by decide) ?_
              exact fun tree member =>
                inside tree member (by rw [Shape.operand_of_chained chained member]; decide)
        · cases allowed with
          | expr chained =>
              refine decides_operands (by decide) chained (fun _ => rfl) (by decide) ?_
              exact fun tree member =>
                inside tree member (by rw [Shape.operand_of_chained chained member]; decide)
      · rintro ⟨⟩
        cases allowed with
        | arguments listed =>
            intro head openings chain callee opening closing start tokens closed spelled
            have own : firstAgain? [⟨Tree.nameTokens .arguments pieces tokens,
                start + tokens.length⟩] =
                  firstRepeated [] (Tree.nameTokens .arguments pieces tokens) :=
              List.findSome?_singleton
            rw [Tree.argumentLists, if_pos rfl, first_again_append, own]
            exact decides_groups listed follows (fun tree member fits =>
              inside tree member (by rw [fits]; decide)) [] closed spelled

/-- A statement has been read as far as it makes one, which only the next token makes known. -/
def IsStatementRead (stage : Stage) : Prop := ∃ head, HasRead head [] stage

/-- At the beginning of a line the tokens of a statement are read, unless a name is given twice. -/
def DecidesStatement (tree : Tree) : Prop :=
  ∀ {start : Nat} {tokens : List Token}, Spells tree.lexemes tokens →
    Decides .start tokens IsStatementRead (firstAgain? (tree.argumentLists start tokens))

/-- What stands before the expression of a statement gives no arguments. -/
theorem decides_headed {production : Production} (outside : production ≠ .arguments)
    {pieces : List (Piece Tree)} {location : Location} {value : Tree} {head : Head}
    (front : List Token) {back : List Token} {start place : Nat}
    (leads : Leads .start front (.atomDue (.start head))) (decides : DecidesTree value)
    (spelled : Spells value.lexemes back)
    (lists : Tree.pieceLists production start (front ++ back) pieces =
      Tree.pieceLists production place back [.tree value]) :
    Decides .start (front ++ back) IsStatementRead
      (firstAgain? (Tree.argumentLists start (front ++ back)
        (.node production pieces location))) := by
  have first : Decides .start front (· = .atomDue (.start head)) none := ⟨_, leads, rfl⟩
  have rest : Decides (.atomDue (.start head)) back IsStatementRead
      (firstAgain? (value.argumentLists place back)) :=
    (decides (.due _) spelled).imp fun next read => ⟨head, read⟩
  rw [Tree.lists_of_node outside, lists, Tree.piece_lists_last _ spelled]
  exact first.append fun next same => same ▸ rest

theorem decides_callable {text : String} {nameLocation location : Location} {signature body : Tree}
    (signed : signature.production = .signature) (shaped : signature.Everywhere Tree.FollowsTable)
    (decides : DecidesTree body) :
    DecidesStatement (.node .callableDefine [.tree (.leaf .identifier text nameLocation),
      .token ":", .tree signature, .token "=", .tree body] location) := by
  intro start tokens spelled
  simp only [Tree.lexemes, Tree.pieceLexemes, Tree.leaf, Lexeme.ofToken, List.cons_append,
    List.nil_append, List.append_nil] at spelled
  obtain ⟨name, tokens, rfl, nameKind, _, spelled⟩ := Spells.name spelled
  obtain ⟨colon, tokens, rfl, colonKind, _, spelled⟩ := spelled.symbol .colon rfl
  obtain ⟨front, back, rfl, before, after⟩ := spelled.split
  obtain ⟨equals, tokens, rfl, equalsKind, _, spelled⟩ := after.symbol .equals rfl
  obtain ⟨read, leads, _⟩ := reads_signature signed shaped name before
  have headLeads : Leads .start (name :: colon :: (front ++ [equals])) _ :=
    .cons (fun _ => .name nameKind) (.cons (fun _ => .colon colonKind)
      (leads.append (.single fun _ => .defineCallable equalsKind)))
  have whole : name :: colon :: (front ++ equals :: tokens) =
      name :: colon :: (front ++ [equals]) ++ tokens := by simp
  have lists : Tree.pieceLists .callableDefine start (name :: colon :: (front ++ equals :: tokens))
      [.tree (.leaf .identifier text nameLocation), .token ":", .tree signature, .token "=",
        .tree body] =
      Tree.pieceLists .callableDefine (start + 1 + 1 + front.length + 1) tokens [.tree body] := by
    change Tree.pieceLists .callableDefine (start + 1 + 1) (front ++ equals :: tokens)
      [.tree signature, .token "=", .tree body] = _
    rw [Tree.piece_lists_tree _ before, Tree.lists_of_signature signed shaped]
    rfl
  rw [whole] at lists ⊢
  exact decides_headed (by decide) _ headLeads decides spelled lists

/-- Every statement is read, unless a name is given twice. -/
theorem decides_statement {tree : Tree} (shaped : tree.Everywhere Tree.FollowsTable)
    (topLevel : tree.production ∈ [.newline, .echo, .varDefine, .varAssign, .callableDefine, .expr])
    (other : tree.production ≠ .newline) : DecidesStatement tree := by
  have whole := (decides shaped).1
  obtain ⟨production, pieces, location⟩ := tree
  obtain ⟨allowed, within⟩ := Tree.everywhere_node.mp shaped
  have follows : ∀ tree, .tree tree ∈ pieces → tree.FollowsTable := fun tree member =>
    within tree member tree .whole
  have expression : ∀ value, .tree value ∈ pieces → value.production = .expr → DecidesTree value :=
    fun value member valued => (decides (within value member)).1 (by rw [valued]; decide)
  simp only [Tree.production, List.mem_cons, List.not_mem_nil, or_false] at topLevel
  intro start tokens spelled
  rcases topLevel with rfl | rfl | rfl | rfl | rfl | rfl
  · exact absurd rfl other
  · cases allowed with
    | @echo value valued =>
        simp only [Tree.lexemes, Tree.pieceLexemes, Lexeme.ofToken, List.append_nil] at spelled
        obtain ⟨keyword, tokens, rfl, kind, _, spelled⟩ := spelled.symbol .echo rfl
        exact decides_headed (by decide) [keyword] (.single fun _ => .echo kind)
          (expression value (by simp) valued) spelled rfl
  · cases allowed with
    | @define name value named valued =>
        obtain ⟨text, _, rfl, _⟩ := Tree.text_of_name (follows name (by simp)) named
        simp only [Tree.lexemes, Tree.pieceLexemes, Tree.leaf, Lexeme.ofToken, List.cons_append,
          List.nil_append, List.append_nil] at spelled
        obtain ⟨name, tokens, rfl, nameKind, _, spelled⟩ := Spells.name spelled
        obtain ⟨colon, tokens, rfl, colonKind, _, spelled⟩ := spelled.symbol .colon rfl
        obtain ⟨equals, tokens, rfl, equalsKind, _, spelled⟩ := spelled.symbol .equals rfl
        exact decides_headed (by decide) [name, colon, equals] (.cons (fun _ => .name nameKind)
          (.cons (fun _ => .colon colonKind) (.single fun _ => .define equalsKind)))
          (expression value (by simp) valued) spelled rfl
    | @defineAs name kind value named declared valued =>
        obtain ⟨text, _, rfl, _⟩ := Tree.text_of_name (follows name (by simp)) named
        obtain ⟨kindText, _, rfl, _⟩ := Tree.text_of_name (follows kind (by simp)) declared
        simp only [Tree.lexemes, Tree.pieceLexemes, Tree.leaf, Lexeme.ofToken, List.cons_append,
          List.nil_append, List.append_nil] at spelled
        obtain ⟨name, tokens, rfl, nameKind, _, spelled⟩ := Spells.name spelled
        obtain ⟨colon, tokens, rfl, colonKind, _, spelled⟩ := spelled.symbol .colon rfl
        obtain ⟨kind, tokens, rfl, kindKind, _, spelled⟩ := Spells.name spelled
        obtain ⟨equals, tokens, rfl, equalsKind, _, spelled⟩ := spelled.symbol .equals rfl
        exact decides_headed (by decide) [name, colon, kind, equals]
          (.cons (fun _ => .name nameKind) (.cons (fun _ => .colon colonKind)
            (.cons (fun _ => .declared kindKind) (.single fun _ => .defineAs equalsKind))))
          (expression value (by simp) valued) spelled rfl
  · cases allowed with
    | @assign name value named valued =>
        obtain ⟨text, _, rfl, _⟩ := Tree.text_of_name (follows name (by simp)) named
        simp only [Tree.lexemes, Tree.pieceLexemes, Tree.leaf, Lexeme.ofToken, List.cons_append,
          List.nil_append, List.append_nil] at spelled
        obtain ⟨name, tokens, rfl, nameKind, _, spelled⟩ := Spells.name spelled
        obtain ⟨equals, tokens, rfl, equalsKind, _, spelled⟩ := spelled.symbol .equals rfl
        exact decides_headed (by decide) [name, equals] (.cons (fun _ => .name nameKind)
          (.single fun _ => .assign equalsKind)) (expression value (by simp) valued) spelled rfl
  · cases allowed with
    | @defineCallable name signature body named signed valued =>
        obtain ⟨text, _, rfl, _⟩ := Tree.text_of_name (follows name (by simp)) named
        exact decides_callable signed (within signature (by simp))
          (expression body (by simp) valued) spelled
  · exact (whole (by simp [Tree.production]) .bare spelled).imp fun next read => ⟨_, read⟩

/-- The trees that a line may go on with are read to the end of input, unless a name is given
twice. -/
theorem decides_forest {forest : List Tree}
    (topLevel : ∀ tree ∈ forest, tree.production ∈
      [.newline, .echo, .varDefine, .varAssign, .callableDefine, .expr])
    (shaped : ∀ tree ∈ forest, tree.Everywhere Tree.FollowsTable)
    (separated : forest.IsChain Tree.Apart) {reading : Reading} {trees : List Tree}
    (mayEnd : MayEnd reading trees)
    (goesOn : ∀ first ∈ forest.head?, first.production = .newline ∨ reading.stage = .start)
    {start : Nat} {tokens : List Token} {stop : Token} (ends : stop.kind = .eof)
    (spelled : Spells (Tree.forestLexemes forest) tokens) :
    reading.Ends (tokens ++ [stop]) (firstAgain? (Tree.forestLists start tokens forest)) := by
  induction forest generalizing reading trees start tokens with
  | nil =>
      cases spelled
      exact ⟨⟨trees, .start⟩, run_of_takes (may_end_stop mayEnd ends)⟩
  | cons tree forest induction =>
      obtain ⟨front, back, rfl, before, after⟩ := Spells.split spelled
      have here := shaped tree (by simp)
      have others := fun {reading trees} (mayEnd : MayEnd reading trees) => @induction
        (fun other member => topLevel other (by simp [member]))
        (fun other member => shaped other (by simp [member])) separated.tail reading trees mayEnd
      rw [Tree.forest_lists_cons before, first_again_append, List.append_assoc]
      by_cases newline : tree.production = .newline
      · obtain ⟨production, pieces, location⟩ := tree
        cases newline
        obtain ⟨allowed, _⟩ := Tree.everywhere_node.mp here
        cases allowed with
        | newline =>
            obtain ⟨token, tokens, rfl, kind, text, rest⟩ := Spells.symbol before .newline rfl
            cases rest.eq_nil
            exact .cons (may_end_newline mayEnd kind)
              (others (.empty (.ofToken .newline token :: trees)) (fun _ _ => .inr rfl) after)
      · obtain ⟨finished, stage⟩ := reading
        obtain rfl : stage = .start := (goesOn tree rfl).resolve_left newline
        have decided := @decides_statement tree here (topLevel tree (by simp)) newline start _
          before
        refine decided.ends ?_
        rintro next ⟨head, chain, atom, read⟩
        refine others (.statement finished read) (fun first member => ?_) after
        cases forest with
        | nil => cases member
        | cons second forest =>
            cases member
            exact .inl ((List.isChain_cons_cons.mp separated).1.resolve_left newline)

end Reading

/-- If the tokens of a text spell a program but that arguments may be given twice, the program is
read if no list gives a name twice. Otherwise, among the lists that give a name twice, the one whose
closing parenthesis comes first is blamed, for the first of its names that is the same as a name
before it in that list. Whatever the text, a name is blamed for nothing but a name before it in the
same list. -/
theorem repeated_arguments_are_blamed {source : String} {body : List Token} {stop : Token}
    (scanned : tokens source = .ok (body ++ [stop])) :
    (∀ forest, IsLooseProgram forest → Spells (Tree.forestLexemes forest) body →
      (IsProgram forest → ∃ parsed, parse source = .ok parsed) ∧
      (¬IsProgram forest → ∃ list ∈ Tree.forestLists 0 body forest, ∃ name,
        RepeatsFirst list.names name ∧
        (body[list.closing]?.map Token.kind) = some .rightParen ∧
        (∀ other ∈ Tree.forestLists 0 body forest, other.Repeats →
          other = list ∨ list.closing < other.closing) ∧
        parse source = .error (.repeatedArgument name.text name.location))) ∧
    ∀ error, parse source = .error error → error.code = .repeatedArgument →
      ∃ before token rest names outer name, body ++ [stop] = before ++ token :: rest ∧
        openNames before = names :: outer ∧ RepeatsFirst names name ∧
        error = .repeatedArgument name.text name.location := by
  refine ⟨fun forest program spelled => ?_, fun _ => blamed_in_open_list scanned⟩
  have ends := last_is_end scanned
  have decided : Reading.start.Ends (body ++ [stop])
      (firstAgain? (Tree.forestLists 0 body forest)) :=
    Reading.decides_forest program.topLevel program.shaped program.separated (.empty [])
      (fun _ _ => .inr rfl) ends spelled
  have once : firstAgain? (Tree.forestLists 0 body forest) = none ↔
      ∀ tree ∈ forest, tree.Everywhere Tree.NamesOnce :=
    first_again_eq_none_iff.trans (Tree.forest_none_repeats_iff program.shaped spelled)
  have closed : ClosedIn 0 body (Tree.forestLists 0 body forest) := by
    refine Tree.forest_lists_closed program.shaped (fun tree member list => ?_) spelled
    have topLevel := program.topLevel tree member
    rw [list] at topLevel
    exact absurd topLevel (by decide)
  rw [parse_of_tokens scanned, parseTokens]
  cases again : firstAgain? (Tree.forestLists 0 body forest) with
  | none =>
      rw [again] at decided
      obtain ⟨last, ran⟩ := decided
      refine ⟨fun _ => ⟨last.finished.reverse, by rw [ran]; rfl⟩, fun other => absurd ?_ other⟩
      exact ⟨program.topLevel, program.separated, program.shaped, once.mp again⟩
  | some name =>
      rw [again] at decided
      refine ⟨fun whole => ?_, fun _ => ?_⟩
      · rw [once.mpr whole.distinct] at again
        cases again
      · obtain ⟨list, member, first, earliest⟩ := closed.first_again again
        obtain ⟨index, closing, place, found, kind⟩ := closed.closed list member
        refine ⟨list, member, name, first, ?_, earliest, ?_⟩
        · rw [place, Nat.zero_add, found, Option.map_some, kind]
        · have failed : Reading.start.run (body ++ [stop]) =
              .error (.repeatedArgument name.text name.location) := decided
          rw [failed]
          exact congrArg _ (located_repeated scanned failed rfl)

theorem Tree.shaped_of_single {production : Production} {inner : Tree} {location : Location}
    (allowed : Shape.Allows Tree.production production [.tree inner])
    (shaped : inner.Everywhere Tree.FollowsTable) :
    (Tree.node production [.tree inner] location).Everywhere Tree.FollowsTable :=
  Tree.everywhere_node.mpr ⟨allowed, by simpa using shaped⟩

/-- The list inside closes first, and so its name is blamed, although the list around it gives a
name twice as well. That arguments are named like what is called is no repetition. -/
theorem inner_list_is_blamed_first :
    ∃ forest body stop, tokens "a(a = b(b = 1, b = 1), a = 1)" = .ok (body ++ [stop]) ∧
      IsLooseProgram forest ∧ Spells (Tree.forestLexemes forest) body ∧ ¬IsProgram forest ∧
      ∃ list ∈ Tree.forestLists 0 body forest, ∃ name, RepeatsFirst list.names name ∧
        (body[list.closing]?.map Token.kind) = some .rightParen ∧
        (∀ other ∈ Tree.forestLists 0 body forest, other.Repeats →
          other = list ∨ list.closing < other.closing) ∧
        .repeatedArgument name.text name.location =
          ParseError.repeatedArgument "b" ⟨⟨15, 16⟩, ⟨1, 16⟩⟩ := by
  let value (atom : Tree) : Tree :=
    .node .expr [.tree (.node .term [.tree (.factorOf atom)] .unknown)] .unknown
  let one : Tree := value (.atomOf (.leaf .intLiteral "1" .unknown))
  let twice (text : String) (first : Tree) : Tree :=
    let named : Tree := .leaf .identifier text .unknown
    value (.atomOf (.node .call [.tree named, .token "(", .tree (.node .arguments
      [.tree named, .token "=", .tree first, .token ",", .tree named, .token "=", .tree one]
      .unknown), .token ")"] .unknown))
  let forest := [twice "a" (twice "b" one)]
  have valued {atom : Tree} (fits : atom.production = .atom)
      (shaped : atom.Everywhere Tree.FollowsTable) :
      (value atom).Everywhere Tree.FollowsTable :=
    Tree.shaped_of_single (.expr (.last rfl)) (Tree.shaped_of_single (.term (.last rfl))
      (Tree.shaped_of_single (.factor fits) shaped))
  have oneShaped : one.Everywhere Tree.FollowsTable := by
    have leaf : (Tree.leaf .intLiteral "1" .unknown).Is .intLiteral :=
      Tree.is_node _ (.intLiteral ⟨[], ['1'], rfl, .inl rfl, by simp, List.all_eq_true.mp rfl⟩)
        (by simp) (by simp)
    exact valued rfl (Tree.is_atom_of leaf (by simp)).wellFormed.shaped
  have twiceShaped {text : String} {letter : Char} (only : text.toList = [letter])
      (begins : Scan.startsName letter = true) (other : text ≠ "echo") {first : Tree}
      (fits : first.production = .expr) (shaped : first.Everywhere Tree.FollowsTable) :
      (twice text first).Everywhere Tree.FollowsTable := by
    have named : (Tree.leaf .identifier text .unknown).Everywhere Tree.FollowsTable :=
      Tree.everywhere_node.mpr
        ⟨.identifier ⟨⟨letter, [], only, begins, by simp⟩, other⟩, by simp⟩
    have list : (Tree.node .arguments _ .unknown).Everywhere Tree.FollowsTable :=
      Tree.everywhere_node.mpr ⟨.arguments (.next rfl fits (.last rfl rfl)),
        by simpa using ⟨named, shaped, named, oneShaped⟩⟩
    have call : (Tree.node .call [.tree _, .token "(", .tree _, .token ")"]
        .unknown).Everywhere Tree.FollowsTable :=
      Tree.everywhere_node.mpr ⟨.call rfl rfl, by simpa using ⟨named, list⟩⟩
    exact valued rfl (Tree.shaped_of_single (.simple (by simp [Tree.production])) call)
  have shaped : (twice "a" (twice "b" one)).Everywhere Tree.FollowsTable :=
    twiceShaped rfl rfl (by decide) rfl (twiceShaped rfl rfl (by decide) rfl oneShaped)
  have loose : IsLooseProgram forest :=
    ⟨by simp [forest, twice, value, Tree.production], .singleton _, by simpa [forest] using shaped⟩
  let all := (tokens "a(a = b(b = 1, b = 1), a = 1)").toOption.getD []
  have scanned : tokens "a(a = b(b = 1, b = 1), a = 1)" =
      .ok (all.dropLast ++ [all.getLastD default]) := rfl
  have spelled : Spells (Tree.forestLexemes forest) all.dropLast := by
    have words : Tree.forestLexemes forest = all.dropLast.map fun token => .plain token.word := by
      decide +kernel
    rw [words]
    exact .of_words _
  have ran : Reading.start.run (all.dropLast ++ [all.getLastD default]) =
    .error (.repeatedArgument "b" ⟨⟨15, 16⟩, ⟨1, 16⟩⟩) := rfl
  have refused : parse "a(a = b(b = 1, b = 1), a = 1)" =
      .error (.repeatedArgument "b" ⟨⟨15, 16⟩, ⟨1, 16⟩⟩) := by
    rw [parse_of_tokens scanned, parseTokens, ran]
    exact congrArg _ (located_repeated scanned ran rfl)
  have decided := (repeated_arguments_are_blamed scanned).1 forest loose spelled
  have again : ¬IsProgram forest := by
    intro whole
    obtain ⟨parsed, read⟩ := decided.1 whole
    rw [refused] at read
    cases read
  obtain ⟨list, member, name, first, closing, earliest, blamed⟩ := decided.2 again
  refine ⟨forest, _, _, scanned, loose, spelled, again, list, member, name, first, closing,
    earliest, ?_⟩
  rw [blamed] at refused
  exact Except.error.inj refused

end Reckon
