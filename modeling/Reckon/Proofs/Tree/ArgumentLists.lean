import Reckon.Proofs.Grammar.Soundness
import Reckon.Proofs.Tree.Spelling

/-!
The argument lists of a program. Each is found with the tokens of its names and the place of the
parenthesis that closes it among the tokens of the program. Lists inside a list close before it, so
that the lists are in the order in which they close.
-/

namespace Reckon

namespace Shape

variable {α : Type} {productionOf : α → Production}

theorem operand_of_chained {operand : Production} {signs : List String} {pieces : List (Piece α)}
    (chained : Chained productionOf operand signs pieces) {tree : α}
    (member : .tree tree ∈ pieces) : productionOf tree = operand := by
  induction chained with
  | last fits => simpa using (by simpa using member : tree = _) ▸ fits
  | next fits _ _ induction =>
      rcases List.mem_cons.mp member with same | member
      · cases same
        exact fits
      · exact induction (by simpa using member)

theorem operand_of_listed {mark : String} {value : Production} {pieces : List (Piece α)}
    (listed : Listed productionOf mark value pieces) {tree : α} (member : .tree tree ∈ pieces) :
    productionOf tree = .identifier ∨ productionOf tree = value := by
  induction listed with
  | none => cases member
  | last named fits =>
      simp only [List.mem_cons, Piece.tree.injEq, reduceCtorEq, List.not_mem_nil, or_false,
        false_or] at member
      rcases member with rfl | rfl
      · exact .inl named
      · exact .inr fits
  | next named fits _ induction =>
      simp only [List.mem_cons, Piece.tree.injEq, reduceCtorEq, false_or] at member
      rcases member with rfl | rfl | member
      · exact .inl named
      · exact .inr fits
      · exact induction member

/-- An argument list stands in a call only. -/
theorem no_arguments_outside_call {production : Production} {pieces : List (Piece α)}
    (allowed : Allows productionOf production pieces) (other : production ≠ .call) {tree : α}
    (member : .tree tree ∈ pieces) : productionOf tree ≠ .arguments := by
  intro produced
  cases allowed with
  | term chained | expr chained => cases (operand_of_chained chained member).symm.trans produced
  | parameters listed | arguments listed =>
      rcases operand_of_listed listed member with named | valued
      · cases named.symm.trans produced
      · cases valued.symm.trans produced
  | call => exact absurd rfl other
  | _ => grind

end Shape

/-- How many tokens a leaf is. -/
def Lexeme.width : Lexeme → Nat
  | .plain _ => 1
  | .signed _ _ => 2

theorem Spells.length_eq {lexemes : List Lexeme} {tokens : List Token}
    (spelled : Spells lexemes tokens) :
    tokens.length = lexemes.foldr (fun lexeme count => count + lexeme.width) 0 := by
  induction spelled with
  | nil => rfl
  | plain _ _ induction =>
      rw [List.length_cons, induction]
      rfl
  | signed _ _ _ _ induction =>
      rw [List.length_cons, List.length_cons, induction]
      rfl

/-- Tokens spell the leaves that are those tokens, each by itself. -/
theorem Spells.of_words (tokens : List Token) :
    Spells (tokens.map fun token => .plain token.word) tokens := by
  induction tokens with
  | nil => exact .nil
  | cons token tokens induction => exact .plain rfl induction

/-- The name is the first among the names that is the same as one before it. -/
def RepeatsFirst (names : List Token) (name : Token) : Prop :=
  ∃ earlier later, names = earlier ++ name :: later ∧ (earlier.map (·.text)).Nodup ∧
    name.text ∈ earlier.map (·.text)

theorem RepeatsFirst.member {names : List Token} {name : Token} (first : RepeatsFirst names name) :
    name ∈ names := by
  obtain ⟨earlier, later, rfl, _⟩ := first
  exact List.mem_append_right _ List.mem_cons_self

/-- An argument list in a program: the names given in it, in order, and the index of the token that
closes it. -/
structure ArgumentList where
  names : List Token
  closing : Nat
deriving DecidableEq, Repr

namespace ArgumentList

/-- A name is given twice. -/
def Repeats (list : ArgumentList) : Prop := ¬(list.names.map (·.text)).Nodup

instance : DecidablePred Repeats := fun list =>
  inferInstanceAs (Decidable ¬(list.names.map (·.text)).Nodup)

def repeated? (list : ArgumentList) : Option Token := firstRepeated [] list.names

end ArgumentList

/-- A name that is met again was seen before or stands before itself, and no name before it is. -/
theorem first_repeated_eq_some {seen : List String} {names : List Token} {name : Token}
    (first : firstRepeated seen names = some name) :
    ∃ earlier later, names = earlier ++ name :: later ∧ (earlier.map (·.text)).Nodup ∧
      (∀ other ∈ earlier, other.text ∉ seen) ∧
      (name.text ∈ seen ∨ name.text ∈ earlier.map (·.text)) := by
  induction names generalizing seen with
  | nil => cases first
  | cons next names induction =>
      rw [firstRepeated] at first
      split at first
      · next known =>
          cases first
          exact ⟨[], names, rfl, .nil, by simp, .inl known⟩
      · next fresh =>
          obtain ⟨earlier, later, rfl, distinct, apart, again⟩ := induction first
          refine ⟨next :: earlier, later, rfl, ?_, ?_, ?_⟩
          · refine List.nodup_cons.mpr ⟨fun member => ?_, distinct⟩
            obtain ⟨other, inside, same⟩ := List.mem_map.mp member
            exact apart other inside (same ▸ List.mem_cons_self)
          · intro other member
            rcases List.mem_cons.mp member with rfl | member
            · exact fresh
            · exact fun known => apart other member (List.mem_cons_of_mem _ known)
          · rcases again with known | before
            · rcases List.mem_cons.mp known with same | known
              · exact .inr (List.mem_cons.mpr (.inl same))
              · exact .inl known
            · exact .inr (List.mem_cons_of_mem _ before)

theorem repeats_first {names : List Token} {name : Token}
    (first : firstRepeated [] names = some name) : RepeatsFirst names name := by
  obtain ⟨earlier, later, same, distinct, _, again⟩ := first_repeated_eq_some first
  exact ⟨earlier, later, same, distinct, again.resolve_left List.not_mem_nil⟩

theorem ArgumentList.repeated_eq_none_iff {list : ArgumentList} :
    list.repeated? = none ↔ ¬list.Repeats := by
  simp [repeated?, Repeats, first_repeated_eq_none_iff]

/-- The name that is blamed in lists that close in their order. -/
def firstAgain? (lists : List ArgumentList) : Option Token :=
  lists.findSome? ArgumentList.repeated?

theorem first_again_append (lists others : List ArgumentList) :
    firstAgain? (lists ++ others) = (firstAgain? lists).or (firstAgain? others) :=
  List.findSome?_append

theorem first_again_eq_none_iff {lists : List ArgumentList} :
    firstAgain? lists = none ↔ ∀ list ∈ lists, ¬list.Repeats := by
  simp only [firstAgain?, List.findSome?_eq_none_iff, ArgumentList.repeated_eq_none_iff]

namespace Tree

/-- How many tokens a tree is written with. -/
def width (tree : Tree) : Nat :=
  tree.lexemes.foldr (fun lexeme count => count + lexeme.width) 0

/-- The tokens of the names among pieces, given the tokens of the pieces. -/
def nameTokens (production : Production) : List (Piece Tree) → List Token → List Token
  | [], _ => []
  | .token text :: pieces, tokens =>
      nameTokens production pieces (tokens.drop (Lexeme.ofToken production text).width)
  | .tree tree :: pieces, tokens =>
      (if tree.production = .identifier then tokens.take tree.width else []) ++
        nameTokens production pieces (tokens.drop tree.width)

mutual

/-- The argument lists in a tree, in the order in which they close, given the tokens of the tree and
the index of the first of them. -/
def argumentLists (start : Nat) (tokens : List Token) : Tree → List ArgumentList
  | .node production pieces _ =>
      pieceLists production start tokens pieces ++
        if production = .arguments then
          [⟨nameTokens production pieces tokens, start + tokens.length⟩]
        else []
termination_by structural tree => tree

/-- The argument lists in pieces of a tree of the production. -/
def pieceLists (production : Production) (start : Nat) (tokens : List Token) :
    List (Piece Tree) → List ArgumentList
  | [] => []
  | .token text :: pieces =>
      let width := (Lexeme.ofToken production text).width
      pieceLists production (start + width) (tokens.drop width) pieces
  | .tree tree :: pieces =>
      argumentLists start (tokens.take tree.width) tree ++
        pieceLists production (start + tree.width) (tokens.drop tree.width) pieces
termination_by structural pieces => pieces

end

/-- The argument lists in a program. -/
def forestLists (start : Nat) (tokens : List Token) : List Tree → List ArgumentList
  | [] => []
  | tree :: forest =>
      argumentLists start (tokens.take tree.width) tree ++
        forestLists (start + tree.width) (tokens.drop tree.width) forest

theorem name_tokens_token {production : Production} {text : String} {pieces : List (Piece Tree)}
    {front : List Token} (spelled : Spells [.ofToken production text] front) (back : List Token) :
    nameTokens production (.token text :: pieces) (front ++ back) =
      nameTokens production pieces back := by
  have length : (Lexeme.ofToken production text).width = front.length := by
    simpa using spelled.length_eq.symm
  rw [nameTokens, length, List.drop_left]

theorem name_tokens_tree (production : Production) {tree : Tree} {pieces : List (Piece Tree)}
    {front : List Token} (spelled : Spells tree.lexemes front) (back : List Token) :
    nameTokens production (.tree tree :: pieces) (front ++ back) =
      (if tree.production = .identifier then front else []) ++
        nameTokens production pieces back := by
  have length : tree.width = front.length := spelled.length_eq.symm
  rw [nameTokens, length, List.take_left, List.drop_left]

theorem piece_lists_token {production : Production} {text : String} {pieces : List (Piece Tree)}
    {front : List Token} (spelled : Spells [.ofToken production text] front) (start : Nat)
    (back : List Token) :
    pieceLists production start (front ++ back) (.token text :: pieces) =
      pieceLists production (start + front.length) back pieces := by
  have length : (Lexeme.ofToken production text).width = front.length := by
    simpa using spelled.length_eq.symm
  rw [pieceLists, length, List.drop_left]

theorem piece_lists_tree (production : Production) {tree : Tree} {pieces : List (Piece Tree)}
    {front : List Token} (spelled : Spells tree.lexemes front) (start : Nat)
    (back : List Token) :
    pieceLists production start (front ++ back) (.tree tree :: pieces) =
      tree.argumentLists start front ++
        pieceLists production (start + front.length) back pieces := by
  have length : tree.width = front.length := spelled.length_eq.symm
  rw [pieceLists, length, List.take_left, List.drop_left]

/-- A tree that is no argument list holds the lists of its pieces. -/
theorem lists_of_node {production : Production} (outside : production ≠ .arguments) (start : Nat)
    (tokens : List Token) (pieces : List (Piece Tree)) (location : Location) :
    (node production pieces location).argumentLists start tokens =
      pieceLists production start tokens pieces := by
  rw [argumentLists, if_neg outside, List.append_nil]

theorem forest_lists_cons {tree : Tree} {front : List Token} (spelled : Spells tree.lexemes front)
    (start : Nat) (back : List Token) (forest : List Tree) :
    forestLists start (front ++ back) (tree :: forest) =
      tree.argumentLists start front ++ forestLists (start + front.length) back forest := by
  have length : tree.width = front.length := spelled.length_eq.symm
  rw [forestLists, length, List.take_left, List.drop_left]

theorem spelled_token {production : Production} {text : String} {pieces : List (Piece Tree)}
    {tokens : List Token}
    (spelled : Spells (pieceLexemes production (.token text :: pieces)) tokens) :
    ∃ front back, tokens = front ++ back ∧ Spells [.ofToken production text] front ∧
      Spells (pieceLexemes production pieces) back := by
  rw [pieceLexemes, ← List.singleton_append] at spelled
  exact spelled.split

theorem spelled_tree {production : Production} {tree : Tree} {pieces : List (Piece Tree)}
    {tokens : List Token}
    (spelled : Spells (pieceLexemes production (.tree tree :: pieces)) tokens) :
    ∃ front back, tokens = front ++ back ∧ Spells tree.lexemes front ∧
      Spells (pieceLexemes production pieces) back := by
  rw [pieceLexemes] at spelled
  exact spelled.split

theorem piece_lists_last (production : Production) {tree : Tree} {tokens : List Token}
    (spelled : Spells tree.lexemes tokens) (start : Nat) :
    pieceLists production start tokens [.tree tree] = tree.argumentLists start tokens := by
  have alone := @piece_lists_tree production tree [] tokens spelled start []
  rw [List.append_nil, pieceLists, List.append_nil] at alone
  exact alone

/-- A group holds the lists of its value, and its name is among the names of the list. -/
theorem piece_lists_group (text mark : String) (location : Location) (pieces : List (Piece Tree))
    (start : Nat) (name sign : Token) (tokens : List Token) :
    pieceLists .arguments start (name :: sign :: tokens)
        (.tree (.leaf .identifier text location) :: .token mark :: pieces) =
      pieceLists .arguments (start + 1 + 1) tokens pieces := rfl

theorem name_tokens_group (text mark : String) (location : Location) (pieces : List (Piece Tree))
    (name sign : Token) (tokens : List Token) :
    nameTokens .arguments (.tree (.leaf .identifier text location) :: .token mark :: pieces)
        (name :: sign :: tokens) = name :: nameTokens .arguments pieces tokens := rfl

theorem name_tokens_value {value : Tree} (valued : value.production = .expr)
    {pieces : List (Piece Tree)} {front : List Token} (spelled : Spells value.lexemes front)
    (back : List Token) : nameTokens .arguments (.tree value :: pieces) (front ++ back) =
      nameTokens .arguments pieces back := by
  rw [name_tokens_tree _ spelled, if_neg (by rw [valued]; decide), List.nil_append]

/-- Names are no lists. -/
theorem piece_lists_of_names (production : Production) {pieces : List (Piece Tree)}
    (names : ∀ tree, .tree tree ∈ pieces → tree.FollowsTable ∧ tree.production = .identifier)
    (start : Nat) (tokens : List Token) : pieceLists production start tokens pieces = [] := by
  induction pieces generalizing start tokens with
  | nil => rfl
  | cons piece pieces induction =>
      have rest := induction fun tree member => names tree (List.mem_cons_of_mem _ member)
      cases piece with
      | token text => exact rest _ _
      | tree tree =>
          obtain ⟨follows, named⟩ := names tree (by simp)
          obtain ⟨text, location, rfl, _⟩ := text_of_name follows named
          rw [pieceLists, rest, List.append_nil]
          rfl

/-- Parameters are no arguments. -/
theorem lists_of_signature {signature : Tree} (signed : signature.production = .signature)
    (shaped : signature.Everywhere FollowsTable) (start : Nat) (tokens : List Token) :
    signature.argumentLists start tokens = [] := by
  obtain ⟨production, pieces, location⟩ := signature
  cases signed
  obtain ⟨allowed, inside⟩ := everywhere_node.mp shaped
  cases allowed with
  | @signature kind list declared listed =>
      obtain ⟨text, kindLocation, rfl, _⟩ :=
        text_of_name (inside kind (by simp) _ .whole) declared
      have parameters := inside list (by simp)
      obtain ⟨_, listPieces, listLocation⟩ := list
      cases listed
      obtain ⟨allowed, within⟩ := everywhere_node.mp parameters
      cases allowed with
      | parameters listed =>
          have none (start : Nat) (tokens : List Token) :
              argumentLists start tokens (.node .parameters listPieces listLocation) = [] := by
            rw [lists_of_node (by decide)]
            exact piece_lists_of_names _ (fun tree member => ⟨within tree member tree .whole,
              (Shape.operand_of_listed listed member).elim id id⟩) start tokens
          rw [lists_of_node (by decide), pieceLists, pieceLists, pieceLists, none]
          rfl

/-- The tokens of the names among pieces are those names. -/
theorem name_tokens_text {production : Production} {pieces : List (Piece Tree)}
    {tokens : List Token} (follows : ∀ tree, .tree tree ∈ pieces → tree.FollowsTable)
    (spelled : Spells (pieceLexemes production pieces) tokens) :
    (nameTokens production pieces tokens).map (·.text) = namesAmong pieces := by
  induction pieces generalizing tokens with
  | nil => rfl
  | cons piece pieces induction =>
      have rest := fun {tokens} => @induction tokens
        fun tree member => follows tree (List.mem_cons_of_mem _ member)
      cases piece with
      | token text =>
          obtain ⟨front, back, rfl, before, after⟩ := spelled_token spelled
          rw [name_tokens_token before, rest after, names_among_token]
      | tree tree =>
          obtain ⟨front, back, rfl, before, after⟩ := spelled_tree spelled
          rw [name_tokens_tree production before, List.map_append, rest after, names_among_tree]
          congr 1
          split
          · next named =>
              obtain ⟨text, location, rfl, _⟩ := text_of_name (follows tree (by simp)) named
              obtain ⟨token, none, rfl, _, same, nothing⟩ := before.uncons
              cases nothing
              rw [List.map_singleton, same]
              rfl
          · next other => rw [name?, if_neg other]; rfl

theorem piece_lists_none_repeats_iff {production : Production} {pieces : List (Piece Tree)}
    {property : Tree → Prop}
    (inside : ∀ tree, .tree tree ∈ pieces → ∀ {start : Nat} {tokens : List Token},
      Spells tree.lexemes tokens →
        ((∀ list ∈ tree.argumentLists start tokens, ¬list.Repeats) ↔ property tree))
    {start : Nat} {tokens : List Token} (spelled : Spells (pieceLexemes production pieces) tokens) :
    (∀ list ∈ pieceLists production start tokens pieces, ¬list.Repeats) ↔
      ∀ tree, .tree tree ∈ pieces → property tree := by
  induction pieces generalizing start tokens with
  | nil => simp [pieceLists]
  | cons piece pieces induction =>
      have rest := fun {start tokens} => @induction
        (fun tree member => inside tree (List.mem_cons_of_mem _ member)) start tokens
      cases piece with
      | token text =>
          obtain ⟨front, back, rfl, before, after⟩ := spelled_token spelled
          rw [piece_lists_token before, rest after]
          simp
      | tree tree =>
          obtain ⟨front, back, rfl, before, after⟩ := spelled_tree spelled
          rw [piece_lists_tree production before, List.forall_mem_append,
            inside tree (by simp) before, rest after]
          simp

/-- No argument list in the tree gives a name twice just in case none of those in its text does. -/
theorem none_repeats_iff {tree : Tree} (shaped : tree.Everywhere FollowsTable) {start : Nat}
    {tokens : List Token} (spelled : Spells tree.lexemes tokens) :
    (∀ list ∈ tree.argumentLists start tokens, ¬list.Repeats) ↔ tree.Everywhere NamesOnce := by
  induction tree generalizing start tokens with
  | node production pieces location induction =>
      obtain ⟨_, inside⟩ := everywhere_node.mp shaped
      have follows : ∀ tree, .tree tree ∈ pieces → tree.FollowsTable :=
        fun tree member => inside tree member tree .whole
      have once : (∀ list ∈ (if production = .arguments then
            [(⟨nameTokens production pieces tokens, start + tokens.length⟩ : ArgumentList)]
            else []), ¬list.Repeats) ↔ NamesOnce (.node production pieces location) := by
        rw [NamesOnce, Tree.production, Tree.pieces, ← name_tokens_text follows spelled]
        split <;> simp [*, ArgumentList.Repeats]
      rw [argumentLists, List.forall_mem_append, everywhere_node, once, and_comm,
        piece_lists_none_repeats_iff (fun tree member _ _ => induction tree member
          (inside tree member)) spelled]

theorem forest_none_repeats_iff {forest : List Tree}
    (shaped : ∀ tree ∈ forest, tree.Everywhere FollowsTable) {start : Nat} {tokens : List Token}
    (spelled : Spells (forestLexemes forest) tokens) :
    (∀ list ∈ forestLists start tokens forest, ¬list.Repeats) ↔
      ∀ tree ∈ forest, tree.Everywhere NamesOnce := by
  induction forest generalizing start tokens with
  | nil => simp [forestLists]
  | cons tree forest induction =>
      obtain ⟨front, back, rfl, before, after⟩ := Spells.split spelled
      rw [forest_lists_cons before, List.forall_mem_append,
        none_repeats_iff (shaped tree (by simp)) before,
        induction (fun other member => shaped other (by simp [member])) after]
      simp

end Tree

/-- Each list is closed by a parenthesis among the tokens, of which the first has the index, and
each closes after those before it. -/
structure ClosedIn (start : Nat) (tokens : List Token) (lists : List ArgumentList) : Prop where
  ordered : lists.Pairwise fun list other => list.closing < other.closing
  closed : ∀ list ∈ lists, ∃ index token, list.closing = start + index ∧
    tokens[index]? = some token ∧ token.kind = .rightParen

namespace ClosedIn

variable {start : Nat} {front back : List Token} {lists others : List ArgumentList}

theorem nil (start : Nat) (tokens : List Token) : ClosedIn start tokens [] := ⟨.nil, by simp⟩

theorem append (before : ClosedIn start front lists)
    (after : ClosedIn (start + front.length) back others) :
    ClosedIn start (front ++ back) (lists ++ others) := by
  constructor
  · refine List.pairwise_append.mpr
      ⟨before.ordered, after.ordered, fun list member other next => ?_⟩
    obtain ⟨index, token, place, found, _⟩ := before.closed list member
    obtain ⟨later, _, behind, _⟩ := after.closed other next
    have inside := (List.getElem?_eq_some_iff.mp found).1
    omega
  · intro list member
    rcases List.mem_append.mp member with member | member
    · obtain ⟨index, token, place, found, kind⟩ := before.closed list member
      have inside := (List.getElem?_eq_some_iff.mp found).1
      exact ⟨index, token, place, by rw [List.getElem?_append_left inside, found], kind⟩
    · obtain ⟨index, token, place, found, kind⟩ := after.closed list member
      refine ⟨front.length + index, token, by omega, ?_, kind⟩
      rw [List.getElem?_append_right (Nat.le_add_right _ _), Nat.add_sub_cancel_left, found]

theorem single {names : List Token} {closing : Token} (kind : closing.kind = .rightParen)
    (rest : List Token) : ClosedIn start (closing :: rest) [⟨names, start⟩] :=
  ⟨List.pairwise_singleton _ _, fun list member => by
    cases List.mem_singleton.mp member
    exact ⟨0, closing, rfl, rfl, kind⟩⟩

/-- The list that is blamed closes before all others that give a name twice. -/
theorem first_again (closed : ClosedIn start front lists) {name : Token}
    (again : firstAgain? lists = some name) :
    ∃ list ∈ lists, RepeatsFirst list.names name ∧
      ∀ other ∈ lists, other.Repeats → other = list ∨ list.closing < other.closing := by
  obtain ⟨before, list, after, rfl, first, none⟩ := List.findSome?_eq_some_iff.mp again
  refine ⟨list, by simp, repeats_first first, fun other member repeats => ?_⟩
  rcases List.mem_append.mp member with member | member
  · exact absurd repeats (ArgumentList.repeated_eq_none_iff.mp (none other member))
  · rcases List.mem_cons.mp member with rfl | member
    · exact .inl rfl
    · have behind := (List.pairwise_append.mp closed.ordered).2.1
      exact .inr ((List.pairwise_cons.mp behind).1 other member)

end ClosedIn

namespace Tree

theorem piece_lists_closed {production : Production} {pieces : List (Piece Tree)}
    (inside : ∀ tree, .tree tree ∈ pieces → ∀ {start : Nat} {tokens : List Token},
      Spells tree.lexemes tokens → ClosedIn start tokens (tree.argumentLists start tokens))
    {start : Nat} {tokens : List Token} (spelled : Spells (pieceLexemes production pieces) tokens) :
    ClosedIn start tokens (pieceLists production start tokens pieces) := by
  induction pieces generalizing start tokens with
  | nil => exact .nil start tokens
  | cons piece pieces induction =>
      have rest := fun {start tokens} => @induction
        (fun tree member => inside tree (List.mem_cons_of_mem _ member)) start tokens
      cases piece with
      | token text =>
          obtain ⟨front, back, rfl, before, after⟩ := spelled_token spelled
          rw [piece_lists_token before]
          exact (ClosedIn.nil start front).append (rest after)
      | tree tree =>
          obtain ⟨front, back, rfl, before, after⟩ := spelled_tree spelled
          rw [piece_lists_tree production before]
          exact (inside tree (by simp) before).append (rest after)

/-- The lists in a tree close inside it, but that an argument list closes with the token behind. -/
theorem lists_closed {tree : Tree} (shaped : tree.Everywhere FollowsTable) :
    (tree.production ≠ .arguments → ∀ {start : Nat} {tokens : List Token},
      Spells tree.lexemes tokens → ClosedIn start tokens (tree.argumentLists start tokens)) ∧
    (tree.production = .arguments → ∀ {start : Nat} {tokens : List Token} {closing : Token},
      Spells tree.lexemes tokens → closing.kind = .rightParen →
        ClosedIn start (tokens ++ [closing]) (tree.argumentLists start tokens)) := by
  induction tree with
  | node production pieces location induction =>
      obtain ⟨allowed, inside⟩ := everywhere_node.mp shaped
      have closed : production ≠ .call → ∀ {start : Nat} {tokens : List Token},
          Spells (pieceLexemes production pieces) tokens →
            ClosedIn start tokens (pieceLists production start tokens pieces) :=
        fun other _ _ spelled => piece_lists_closed (fun tree member =>
          (induction tree member (inside tree member)).1
            (Shape.no_arguments_outside_call allowed other member)) spelled
      constructor
      · intro produced start tokens spelled
        have outside : production ≠ .arguments := produced
        rw [lexemes] at spelled
        rw [lists_of_node outside]
        by_cases other : production = .call
        · subst other
          cases allowed with
          | @call callee list named listed =>
              obtain ⟨name, behind, rfl, nameSpelled, spelled⟩ := spelled_tree spelled
              obtain ⟨opening, behind, rfl, openingSpelled, spelled⟩ := spelled_token spelled
              obtain ⟨inner, behind, rfl, innerSpelled, spelled⟩ := spelled_tree spelled
              obtain ⟨closing, none, rfl, closingKind, _, nothing⟩ :=
                @Spells.uncons ⟨.rightParen, ")"⟩ _ _ spelled
              cases nothing
              have unlisted : callee.production ≠ .arguments := by
                rw [named]
                decide
              rw [piece_lists_tree _ nameSpelled, piece_lists_token openingSpelled,
                piece_lists_tree _ innerSpelled, pieceLists, pieceLists, List.append_nil]
              refine ((induction callee (by simp) (inside callee (by simp))).1 unlisted
                nameSpelled).append ((ClosedIn.nil _ opening).append ?_)
              exact (induction list (by simp) (inside list (by simp))).2 listed innerSpelled
                closingKind
        · exact closed other spelled
      · intro produced start tokens closing spelled kind
        obtain rfl : production = .arguments := produced
        rw [argumentLists, if_pos rfl]
        exact (closed (by decide) spelled).append (.single kind [])

theorem forest_lists_closed {forest : List Tree}
    (shaped : ∀ tree ∈ forest, tree.Everywhere FollowsTable)
    (outside : ∀ tree ∈ forest, tree.production ≠ .arguments) {start : Nat} {tokens : List Token}
    (spelled : Spells (forestLexemes forest) tokens) :
    ClosedIn start tokens (forestLists start tokens forest) := by
  induction forest generalizing start tokens with
  | nil => exact .nil start tokens
  | cons tree forest induction =>
      obtain ⟨front, back, rfl, before, after⟩ := Spells.split spelled
      rw [forest_lists_cons before]
      exact ((lists_closed (shaped tree (by simp))).1 (outside tree (by simp)) before).append
        (induction (fun other member => shaped other (by simp [member]))
          (fun other member => outside other (by simp [member])) after)

end Tree

end Reckon
