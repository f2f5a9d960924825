import Reckon.Proofs.Token.Places
import Reckon.Proofs.Tree.Spelling

/-!
The tokens that a tree consists of. They fall apart into those of its pieces, and the location of a
tree reaches from the first of them to the last. What that says of spans, texts and positions is
drawn from the places of the tokens.
-/

namespace Reckon

/-- The location reaches from the first of the tokens to the last. Without a token it is the point
at which the parenthesis after it starts. -/
inductive Location.Spans : Location → List Token → List Token → Prop where
  | tokens {first last : Token} {tokens after : List Token} (begins : tokens.head? = some first)
      (ends : tokens.getLast? = some last) :
      Spans ⟨⟨first.span.start, last.span.stop⟩, first.location.position⟩ tokens after
  | empty {closing : Token} {after : List Token} (kind : closing.kind = .rightParen) :
      Spans ⟨.point closing.span.start, closing.location.position⟩ [] (closing :: after)

namespace Ascending

variable {tokens front back : List Token}

theorem left (ascending : Ascending (front ++ back)) : Ascending front :=
  ⟨fun token member => ascending.forward token (List.mem_append_left back member),
    (List.pairwise_append.mp ascending.ordered).1⟩

theorem right (front : List Token) (ascending : Ascending (front ++ back)) : Ascending back :=
  ⟨fun token member => ascending.forward token (List.mem_append_right front member),
    (List.pairwise_append.mp ascending.ordered).2.1⟩

theorem across (ascending : Ascending (front ++ back)) {earlier later : Token}
    (before : earlier ∈ front) (after : later ∈ back) : earlier.span.stop ≤ later.span.start :=
  (List.pairwise_append.mp ascending.ordered).2.2 earlier before later after

theorem first_starts {first token : Token} (ascending : Ascending tokens)
    (begins : tokens.head? = some first) (member : token ∈ tokens) :
    first.span.start ≤ token.span.start := by
  obtain ⟨rest, rfl⟩ := List.head?_eq_some_iff.mp begins
  rcases List.mem_cons.mp member with rfl | member
  · exact Nat.le_refl _
  · have forward := ascending.forward first (by simp)
    have ordered := (List.pairwise_cons.mp ascending.ordered).1 token member
    omega

theorem last_stops {last token : Token} (ascending : Ascending tokens)
    (ends : tokens.getLast? = some last) (member : token ∈ tokens) :
    token.span.stop ≤ last.span.stop := by
  obtain ⟨earlier, rfl⟩ := List.getLast?_eq_some_iff.mp ends
  rcases List.mem_append.mp member with member | member
  · have forward := ascending.forward last (by simp)
    have ordered := ascending.across member (List.mem_singleton.mpr rfl)
    omega
  · rw [List.mem_singleton.mp member]

end Ascending

namespace Location

variable {location other : Location} {tokens after front back : List Token} {token : Token}

theorem spans_token (token : Token) (after : List Token) : token.location.Spans [token] after :=
  .tokens rfl rfl

theorem Spans.append (spans : location.Spans tokens after) (more : List Token) :
    location.Spans tokens (after ++ more) := by
  cases spans with
  | tokens begins ends => exact .tokens begins ends
  | empty kind => exact .empty kind

/-- The tokens and those after them decide the location. -/
theorem Spans.unique (spans : location.Spans tokens after) (same : other.Spans tokens after) :
    location = other := by
  cases spans with
  | tokens begins ends =>
      cases same with
      | tokens starts stops =>
          cases begins.symm.trans starts
          cases ends.symm.trans stops
          rfl
      | empty => cases begins
  | empty =>
      cases same with
      | tokens starts => cases starts
      | empty => rfl

/-- A location starts where one of the tokens does, its own or those after it. -/
theorem Spans.starts (spans : location.Spans tokens after) :
    ∃ token ∈ tokens ++ after, location.span.start = token.span.start ∧
      location.position = token.location.position := by
  cases spans with
  | @tokens first _ _ _ begins =>
      exact ⟨first, List.mem_append_left _ (List.mem_of_mem_head? begins), rfl, rfl⟩
  | @empty closing => exact ⟨closing, by simp, rfl, rfl⟩

theorem Spans.forward (spans : location.Spans tokens after) (ascending : Ascending tokens) :
    location.span.start ≤ location.span.stop := by
  cases spans with
  | @tokens first last _ _ begins ends =>
      have member := List.mem_of_mem_head? begins
      have forward := ascending.forward first member
      have stops := ascending.last_stops ends member
      exact Nat.le_trans forward stops
  | empty => exact Nat.le_refl _

/-- Where the tokens stand in the source, the location is that of a piece of the source. -/
theorem Spans.holds {source : List Char} (spans : location.Spans tokens after)
    (placed : ∀ token ∈ tokens ++ after, token.location.Holds source token.text.toList)
    (ascending : Ascending tokens) : ∃ text, location.Holds source text := by
  have forward := spans.forward ascending
  cases spans with
  | @tokens first last _ _ begins ends =>
      obtain ⟨before, _, whole, starts⟩ :=
        placed first (List.mem_append_left _ (List.mem_of_mem_head? begins))
      obtain ⟨others, behind, split, stops⟩ :=
        placed last (List.mem_append_left _ (List.mem_of_mem_getLast? ends))
      simp only [Token.span, starts, stops, ← Text.byte_size_append] at forward
      rw [List.append_assoc] at whole
      obtain ⟨text, reached⟩ := Text.beginning_of_byte_size (whole.symm.trans split) forward
      refine ⟨text, before, behind, by rw [split, reached], ?_⟩
      simp only [Token.span, starts, stops, ← Text.byte_size_append, reached]
  | @empty closing _ kind =>
      obtain ⟨before, rest, whole, starts⟩ := placed closing (by simp)
      refine ⟨[], before, closing.text.toList ++ rest, ?_, ?_⟩
      · rw [whole]
        simp only [List.append_assoc, List.append_nil]
      · rw [Token.span, starts]
        rfl

/-- What comes after has not begun where the location ends. -/
theorem Spans.before (spans : location.Spans tokens after) (ascending : Ascending (tokens ++ after))
    (member : token ∈ after) : location.span.stop ≤ token.span.start := by
  cases spans with
  | tokens _ ends => exact ascending.across (List.mem_of_mem_getLast? ends) member
  | @empty closing after =>
      have begins : (closing :: after).head? = some closing := rfl
      exact ascending.first_starts begins member

/-- A location lies inside that of tokens which its own and those after it belong to. -/
theorem Spans.inside (spans : location.Spans tokens after) {outer : List Token}
    {behind : List Token} (around : other.Spans outer behind) (ascending : Ascending outer)
    (belong : ∀ token ∈ tokens ++ after, token ∈ outer) :
    other.span.start ≤ location.span.start ∧ location.span.stop ≤ other.span.stop := by
  obtain ⟨token, member, starts, _⟩ := spans.starts
  cases around with
  | @tokens first last _ _ begins ends =>
      refine ⟨?_, ?_⟩
      · rw [starts]
        exact ascending.first_starts begins (belong token member)
      · cases spans with
        | tokens _ stops =>
            refine ascending.last_stops ends (belong _ ?_)
            exact List.mem_append_left _ (List.mem_of_mem_getLast? stops)
        | @empty closing =>
            have among := belong closing (by simp)
            exact Nat.le_trans (ascending.forward closing among) (ascending.last_stops ends among)
  | empty => exact absurd (belong token member) List.not_mem_nil

/-- From a location to a later one: the tokens of both and those between. -/
theorem Spans.through (spans : location.Spans front []) (middle : List Token)
    (later : other.Spans back []) (ascending : Ascending (front ++ middle ++ back)) :
    (location.through other).Spans (front ++ middle ++ back) [] := by
  cases spans with
  | @tokens first mid _ _ begins stops =>
      cases later with
      | @tokens next last _ _ starts ends =>
          have whole : (front ++ middle ++ back).head? = some first := by
            rw [List.append_assoc, List.head?_append, begins]
            rfl
          have wholeEnds : (front ++ middle ++ back).getLast? = some last := by
            rw [List.getLast?_append, ends]
            rfl
          have nextMember : next ∈ front ++ middle ++ back :=
            List.mem_append_right _ (List.mem_of_mem_head? starts)
          have midMember : mid ∈ front ++ middle ++ back :=
            List.mem_append_left _ (List.mem_append_left _ (List.mem_of_mem_getLast? stops))
          have merged : (Location.through ⟨⟨first.span.start, mid.span.stop⟩,
              first.location.position⟩ ⟨⟨next.span.start, last.span.stop⟩,
              next.location.position⟩) =
              ⟨⟨first.span.start, last.span.stop⟩, first.location.position⟩ := by
            have starts := ascending.first_starts whole nextMember
            have stops := ascending.last_stops wholeEnds midMember
            simp only [Location.through, Span.merge, Nat.min_eq_left starts,
              Nat.max_eq_right stops]
          rw [merged]
          exact .tokens whole wholeEnds

end Location

namespace Tree

/-- The tokens are those of the pieces of a tree of the production, in order. A signed number is one
piece and two tokens, and a tree among the pieces has a location that spans its own tokens. -/
inductive CoversPieces : Production → List (Piece Tree) → List Token → Prop where
  | nil {production : Production} : CoversPieces production [] []
  | token {production : Production} {text : String} {token : Token} {pieces : List (Piece Tree)}
      {tokens : List Token} (same : Lexeme.ofToken production text = .plain token.word)
      (rest : CoversPieces production pieces tokens) :
      CoversPieces production (.token text :: pieces) (token :: tokens)
  | signed {production : Production} {text : String} {sign number : Token}
      {pieces : List (Piece Tree)} {tokens : List Token}
      (same : Lexeme.ofToken production text = .signed sign.word number.word)
      (adjacent : sign.isAdjacent number = true) (rest : CoversPieces production pieces tokens) :
      CoversPieces production (.token text :: pieces) (sign :: number :: tokens)
  | tree {production : Production} {inner : Tree} {pieces : List (Piece Tree)}
      {front back : List Token} (inside : CoversPieces inner.production inner.pieces front)
      (extent : inner.location.Spans front back) (rest : CoversPieces production pieces back) :
      CoversPieces production (.tree inner :: pieces) (front ++ back)

/-- A tree of these tokens, whose location spans them. -/
structure Covers (tree : Tree) (tokens after : List Token) : Prop where
  pieces : CoversPieces tree.production tree.pieces tokens
  extent : tree.location.Spans tokens after

variable {production : Production} {pieces : List (Piece Tree)} {tree child : Tree}
  {tokens after : List Token}

theorem CoversPieces.spells (covers : CoversPieces production pieces tokens) :
    Spells (pieceLexemes production pieces) tokens := by
  induction covers with
  | nil => exact .nil
  | token same _ induction =>
      rw [pieceLexemes, same]
      exact .plain rfl induction
  | signed same adjacent _ induction =>
      rw [pieceLexemes, same]
      exact .signed rfl rfl adjacent induction
  | @tree _ inner _ _ _ _ _ _ inside rest =>
      obtain ⟨innerProduction, innerPieces, location⟩ := inner
      exact inside.append rest

theorem CoversPieces.of_member (covers : CoversPieces production pieces tokens)
    (member : .tree child ∈ pieces) :
    ∃ before own behind, tokens = before ++ own ++ behind ∧ child.Covers own behind := by
  induction covers with
  | nil => cases member
  | @token _ _ token _ _ _ _ induction =>
      obtain ⟨before, own, behind, rfl, covers⟩ := induction (by simpa using member)
      exact ⟨token :: before, own, behind, rfl, covers⟩
  | @signed _ _ sign number _ _ _ _ _ induction =>
      obtain ⟨before, own, behind, rfl, covers⟩ := induction (by simpa using member)
      exact ⟨sign :: number :: before, own, behind, rfl, covers⟩
  | @tree _ inner _ front back inside extent rest _ induction =>
      rcases List.mem_cons.mp member with same | member
      · cases same
        exact ⟨[], front, back, rfl, inside, extent⟩
      · obtain ⟨before, own, behind, rfl, covers⟩ := induction member
        exact ⟨front ++ before, own, behind, by simp only [List.append_assoc], covers⟩

/-- The trees among the pieces come one behind the other. -/
theorem CoversPieces.ordered (covers : CoversPieces production pieces tokens)
    (ascending : Ascending tokens) :
    (pieces.filterMap Piece.tree?).Pairwise fun earlier later =>
      earlier.span.stop ≤ later.span.start := by
  induction covers with
  | nil => exact .nil
  | @token _ _ token _ tokens _ _ induction =>
      exact induction (Ascending.right [token] ascending)
  | @signed _ _ sign number _ _ _ _ _ induction =>
      exact induction (Ascending.right [sign, number] ascending)
  | @tree _ inner pieces front back _ extent rest _ induction =>
      refine List.pairwise_cons.mpr ⟨fun later member => ?_, induction (ascending.right front)⟩
      obtain ⟨piece, member, same⟩ := List.mem_filterMap.mp member
      cases piece with
      | token => cases same
      | tree later =>
          cases same
          obtain ⟨before, own, behind, rfl, covers⟩ := rest.of_member member
          obtain ⟨token, among, starts, _⟩ := covers.extent.starts
          have behindInner : token ∈ before ++ own ++ behind := by
            rw [List.append_assoc]
            exact List.mem_append_right before among
          exact Nat.le_trans (extent.before ascending behindInner) (Nat.le_of_eq starts.symm)

/-- What stands inside a tree consists of some of its tokens. -/
theorem Covers.part {node : Tree} (covers : tree.Covers tokens after) (part : node.PartOf tree) :
    ∃ before own behind, tokens ++ after = before ++ own ++ behind ∧ node.Covers own behind := by
  induction part generalizing tokens after with
  | whole => exact ⟨[], tokens, after, rfl, covers⟩
  | inside member _ induction =>
      obtain ⟨before, own, behind, rfl, inner⟩ := covers.pieces.of_member member
      obtain ⟨front, mine, back, same, found⟩ :=
        induction ⟨inner.pieces, inner.extent.append after⟩
      refine ⟨before ++ front, mine, back, ?_, found⟩
      rw [List.append_assoc before own, List.append_assoc, List.append_assoc, same]
      simp only [List.append_assoc]

/-- How a node stands in a source and its tokens. -/
structure StandsIn (source : List Char) (scanned : List Token) (node : Tree) : Prop where
  own : ∃ before tokens after, scanned = before ++ tokens ++ after ∧
    Spells node.lexemes tokens ∧ node.location.Spans tokens after
  forward : node.span.start ≤ node.span.stop
  inside : ∀ child, .tree child ∈ node.pieces →
    node.span.start ≤ child.span.start ∧ child.span.stop ≤ node.span.stop
  ordered : (node.pieces.filterMap Piece.tree?).Pairwise fun earlier later =>
    earlier.span.stop ≤ later.span.start
  text : ∀ text, node.leafText? = some text →
    Text.slice? node.span.start node.span.stop source = some text.toList
  position : ∃ before after, source = before ++ after ∧
    node.span.start = Text.byteSize before ∧
    node.location.position = Text.positionAfter before

end Tree

theorem Lexeme.of_number_plain {kind : TokenKind} {text : String} {word : Word}
    (same : Lexeme.ofNumber kind text = .plain word) : text = word.text := by
  unfold Lexeme.ofNumber at same
  split at same
  · cases same
  · cases same
  · cases same
    rfl

theorem Lexeme.of_number_signed {kind : TokenKind} {text : String} {sign number : Word}
    (same : Lexeme.ofNumber kind text = .signed sign number) :
    text = sign.text ++ number.text := by
  unfold Lexeme.ofNumber at same
  split at same
  · next digits chars =>
      cases same
      rw [← String.ofList_toList (s := text), chars]
      have joined : String.ofList (['+'] ++ digits) = "+" ++ String.ofList digits :=
        String.ofList_append
      exact joined
  · next digits chars =>
      cases same
      rw [← String.ofList_toList (s := text), chars]
      have joined : String.ofList (['-'] ++ digits) = "-" ++ String.ofList digits :=
        String.ofList_append
      exact joined
  · cases same

namespace Lexeme

variable {production : Production} {text : String}

/-- A piece has the text of its token. -/
theorem of_token_plain {word : Word} (same : ofToken production text = .plain word) :
    text = word.text := by
  cases production with
  | intLiteral => exact of_number_plain same
  | numLiteral => exact of_number_plain same
  | _ =>
      cases same
      first
        | rfl
        | exact (Word.of_symbol_text text).symm

/-- A signed piece has the texts of its two tokens, one behind the other. -/
theorem of_token_signed {sign number : Word}
    (same : ofToken production text = .signed sign number) : text = sign.text ++ number.text := by
  cases production with
  | intLiteral => exact of_number_signed same
  | numLiteral => exact of_number_signed same
  | _ => cases same

end Lexeme

namespace Tree

variable {source : List Char} {tree : Tree} {tokens after : List Token}

/-- A leaf has the source text under its span, a sign before a number included. -/
theorem Covers.text (covers : tree.Covers tokens after)
    (placed : ∀ token ∈ tokens, token.location.Holds source token.text.toList)
    (ascending : Ascending tokens) {text : String} (leaf : tree.leafText? = some text) :
    Text.slice? tree.span.start tree.span.stop source = some text.toList := by
  suffices holds : tree.location.Holds source text.toList from holds.slice
  obtain ⟨covers, extent⟩ := covers
  obtain ⟨production, pieces, location⟩ := tree
  unfold leafText? at leaf
  split at leaf
  · next same =>
      split_ifs at leaf
      cases same
      cases leaf
      cases covers with
      | @token _ _ token _ _ same rest =>
          cases rest
          rw [extent.unique (Location.spans_token token after), Lexeme.of_token_plain same]
          exact placed token (by simp)
      | @signed _ _ sign number _ _ same adjacent rest =>
          cases rest
          have both : (sign.location.through number.location).Spans [sign, number] [] :=
            (Location.spans_token sign []).through [] (Location.spans_token number []) ascending
          have touch : sign.location.span.stop = number.location.span.start :=
            beq_iff_eq.mp adjacent
          rw [extent.unique (both.append after), Lexeme.of_token_signed same,
            String.toList_append]
          exact (placed sign (by simp)).through (placed number (by simp)) touch
  · cases leaf

/-- Every node of a tree that consists of tokens of the source stands among them as it should. -/
theorem Covers.stands {before scanned : List Token} (covers : tree.Covers tokens after)
    (whole : scanned = before ++ tokens ++ after)
    (placed : ∀ token ∈ scanned, token.location.Holds source token.text.toList)
    (ascending : Ascending scanned) : tree.Everywhere (StandsIn source scanned) := by
  intro node part
  obtain ⟨front, own, behind, same, covers⟩ := covers.part part
  have split : scanned = before ++ front ++ own ++ behind := by
    rw [whole, List.append_assoc, same]
    simp only [List.append_assoc]
  have ownAscending : Ascending (own ++ behind) := by
    rw [split, List.append_assoc] at ascending
    exact ascending.right (before ++ front)
  have ownPlaced : ∀ token ∈ own ++ behind, token.location.Holds source token.text.toList := by
    intro token member
    refine placed token ?_
    rw [split, List.append_assoc]
    exact List.mem_append_right _ member
  constructor
  · have spelled := covers.pieces.spells
    obtain ⟨production, pieces, location⟩ := node
    exact ⟨before ++ front, own, behind, split, spelled, covers.extent⟩
  · exact covers.extent.forward ownAscending.left
  · intro child member
    obtain ⟨first, inner, rest, rfl, inside⟩ := covers.pieces.of_member member
    refine inside.extent.inside covers.extent ownAscending.left fun token member => ?_
    rw [List.append_assoc]
    exact List.mem_append_right first member
  · exact covers.pieces.ordered ownAscending.left
  · intro text leaf
    exact covers.text (fun token member => ownPlaced token (List.mem_append_left behind member))
      ownAscending.left leaf
  · obtain ⟨token, member, starts, position⟩ := covers.extent.starts
    obtain ⟨front, back, same, location⟩ := ownPlaced token member
    refine ⟨front, token.text.toList ++ back, by rw [same, List.append_assoc], ?_, ?_⟩
    · exact starts.trans (congrArg (·.span.start) location)
    · exact position.trans (congrArg (·.position) location)

end Tree

end Reckon
