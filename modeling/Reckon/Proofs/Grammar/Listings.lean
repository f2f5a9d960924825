import Reckon.Proofs.Grammar.Programs
import Reckon.Proofs.Tree.Admitted

/-!
Where the lists in a program come from. Each was read as a series, where some of the tokens of the
program were ahead, and its pieces are those of the items in the series, one after the other.
-/

namespace Reckon

theorem list_pieces_reverse (mark : String) (items : List ListItem) :
    listPieces mark items.reverse [] = items.flatMap (ListItem.pieces mark) := by
  rw [listPieces, List.foldl_reverse]
  induction items with
  | nil => rfl
  | cons item items induction => rw [List.foldr_cons, induction, List.flatMap_cons]

namespace Listing

theorem tree_eq_node (listing : Listing) (items : List ListItem) (start : Token) :
    ∃ location, listing.tree items start =
      .node listing.production (items.flatMap (ListItem.pieces listing.mark)) location := by
  rw [← list_pieces_reverse]
  exact ⟨_, rfl⟩

/-- What an item of the listing may say of its name: an expression, or an identifier. -/
def Allows : Listing → Tree → Prop
  | .arguments, tree => tree.production = .expr
  | .parameters, tree => ∃ kind, tree = .ofToken .identifier kind

theorem production_injective {listing other : Listing}
    (same : listing.production = other.production) : listing = other := by
  cases listing <;> cases other <;> first | rfl | cases same

end Listing

namespace Descent

/-- The tree is the one of the items that are read as a series where the last of the tokens are
ahead. -/
def ReadAs (tokens : List Token) (listing : Listing) (items : List ListItem) (tree : Tree) : Prop :=
  ∃ ahead rest, ahead <:+ tokens ∧ read (.series listing) ahead = some (.ok items, rest) ∧
    tree = listing.tree items (upcoming ahead)

/-- The item has a value that the listing allows, and the comma behind it is one of the tokens. -/
structure Itemized (tokens : List Token) (listing : Listing) (item : ListItem) : Prop where
  valued : listing.Allows item.value
  separated : ∀ comma, item.comma? = some comma → comma ∈ tokens ∧ comma.kind = .comma

/-- If the tree is a list, it was read as a series. -/
def Sourced (tokens : List Token) (tree : Tree) : Prop :=
  ∀ listing : Listing, tree.production = listing.production →
    ∃ items, ReadAs tokens listing items tree ∧ ∀ item ∈ items, Itemized tokens listing item

/-- All lists in the tree were read as series. -/
def AllSourced (tokens : List Token) (tree : Tree) : Prop := tree.Everywhere (Sourced tokens)

/-- The reader ends, and all lists in a tree it returns were read as series. -/
def Sources (tokens : List Token) (reader : Descent Tree) (ahead : List Token) : Prop :=
  Goes reader ahead fun tree _ => AllSourced tokens tree

section

variable {tokens ahead : List Token}

theorem sourced_node {production : Production} {pieces : List (Piece Tree)} (location : Location)
    (plain : production ∉ [.arguments, .parameters])
    (inside : Piece.Every (AllSourced tokens) pieces) :
    AllSourced tokens (.node production pieces location) := by
  refine Tree.everywhere_node.mpr ⟨?_, inside⟩
  rintro listing rfl
  exact absurd (by cases listing <;> simp [Listing.production]) plain

theorem sourced_of_token {production : Production} (plain : production ∉ [.arguments, .parameters])
    (token : Token) : AllSourced tokens (.ofToken production token) :=
  sourced_node _ plain (by simp)

theorem sourced_name (token : Token) : AllSourced tokens (.ofToken .identifier token) :=
  sourced_of_token (by decide) token

theorem sourced_list {listing : Listing} {items : List ListItem} {rest : List Token}
    (inside : ahead <:+ tokens) (ended : read (.series listing) ahead = some (.ok items, rest))
    (itemized : ∀ item ∈ items, Itemized tokens listing item ∧ AllSourced tokens item.value) :
    AllSourced tokens (listing.tree items (upcoming ahead)) := by
  obtain ⟨location, node⟩ := listing.tree_eq_node items (upcoming ahead)
  rw [node]
  refine Tree.everywhere_node.mpr ⟨?_, ?_⟩
  · intro other same
    obtain rfl := Listing.production_injective same
    refine ⟨items, ⟨ahead, rest, inside, ended, node.symm⟩, ?_⟩
    exact fun item member => (itemized item member).1
  · intro tree member
    obtain ⟨item, listed, member⟩ := List.mem_flatMap.mp member
    obtain ⟨name, value, comma?⟩ := item
    have cases : tree = .ofToken .identifier name ∨ tree = value := by
      cases comma? <;> simpa [ListItem.pieces] using member
    rcases cases with rfl | rfl
    · exact sourced_name name
    · exact (itemized _ listed).2

theorem every_chain_pieces {holds : Tree → Prop} {earlier : List (Tree × Token)}
    {pieces : List (Piece Tree)} (operands : ∀ pair ∈ earlier, holds pair.1)
    (every : Piece.Every holds pieces) : Piece.Every holds (chainPieces earlier pieces) := by
  induction earlier generalizing pieces with
  | nil => exact every
  | cons pair earlier induction =>
      apply induction fun other member => operands other (List.mem_cons_of_mem _ member)
      simp only [Piece.every_tree, Piece.every_token]
      exact ⟨operands pair List.mem_cons_self, every⟩

theorem sourced_chain (level : Level) {earlier : List (Tree × Token)} {last : Tree}
    (operands : ∀ pair ∈ earlier, AllSourced tokens pair.1) (sourced : AllSourced tokens last) :
    AllSourced tokens (finishChain level.production earlier last) := by
  apply sourced_node _ (by cases level <;> decide)
  apply every_chain_pieces operands
  simpa using sourced

theorem sourced_atom_of {inner : Tree} (sourced : AllSourced tokens inner) :
    AllSourced tokens (.atomOf inner) :=
  sourced_node _ (by decide) (by simpa using sourced)

theorem sourced_enclosed {production : Production} (plain : production ∉ [.arguments, .parameters])
    (name opening : Token) {list : Tree} (closed : Token) (sourced : AllSourced tokens list) :
    AllSourced tokens (enclosed production name opening list closed) := by
  apply sourced_node _ plain
  simp only [Piece.every_tree, Piece.every_token, Piece.every_nil, and_true]
  exact ⟨sourced_name name, sourced⟩

theorem sourced_finish {head : Head} {value : Tree} (sourced : AllSourced tokens value)
    (signed : ∀ name signature, head = .callable name signature → AllSourced tokens signature) :
    AllSourced tokens (head.finish value) := by
  cases head with
  | bare => exact sourced
  | echo keyword => exact sourced_node _ (by decide) (by simpa using sourced)
  | assign name =>
      apply sourced_node _ (by decide)
      simp only [Piece.every_tree, Piece.every_token, Piece.every_nil, and_true]
      exact ⟨sourced_name name, sourced⟩
  | define name kind? =>
      cases kind? with
      | none =>
          apply sourced_node _ (by decide)
          simp only [Piece.every_tree, Piece.every_token, Piece.every_nil, and_true]
          exact ⟨sourced_name name, sourced⟩
      | some kind =>
          apply sourced_node _ (by decide)
          simp only [Piece.every_tree, Piece.every_token, Piece.every_nil, and_true]
          exact ⟨sourced_name name, sourced_name kind, sourced⟩
  | callable name signature =>
      apply sourced_node _ (by decide)
      simp only [Piece.every_tree, Piece.every_token, Piece.every_nil, and_true]
      exact ⟨sourced_name name, signed name signature rfl, sourced⟩

theorem identifier_sources : Sources tokens (read .identifier) ahead := by
  rw [read_eq, body]
  apply Halts.map
  exact Goes.imp name_advances fun name _ _ _ => sourced_name name

theorem ReadsNumber.sourced {sign? : Option Token} {tree : Tree} {rest : List Token}
    (read : ReadsNumber sign? ahead tree rest) : AllSourced tokens tree := by
  obtain ⟨number, production, _, leaf, rfl⟩ := read
  have plain : production ∉ [.arguments, .parameters] := by
    generalize number.kind = kind at leaf
    cases leaf <;> decide
  cases sign? with
  | none => exact sourced_of_token plain number
  | some sign => exact sourced_node _ plain (by simp)

theorem literal_sources : Sources tokens (read .literal) ahead := by
  rw [read_eq, body]
  apply Halts.imp (Halts.and literal_advances literal_halts)
  · rintro tree rest ⟨⟨passed, _⟩, read | ⟨sign, behind, _, _, read⟩⟩
    · exact ⟨passed, read.sourced⟩
    · exact ⟨passed, read.sourced⟩
  · exact fun _ _ passed => passed.1

/-- What the readers that call each other return where these tokens are ahead. -/
structure Sourcing (tokens ahead : List Token) : Prop where
  chain : ∀ level, Goes (read (.chain level)) ahead fun tree _ =>
    tree.production = level.production ∧ AllSourced tokens tree
  chainRest : ∀ level earlier last, (∀ pair ∈ earlier, AllSourced tokens pair.1) →
    AllSourced tokens last → Goes (read (.chainRest level earlier last)) ahead fun tree _ =>
      tree.production = level.production ∧ AllSourced tokens tree
  operand : ∀ level, Sources tokens (read (.operand level)) ahead
  factor : Sources tokens (read .factor) ahead
  argumentList : Sources tokens (read .argumentList) ahead
  series : ∀ listing, Goes (read (.series listing)) ahead fun items _ =>
    ∀ item ∈ items, Itemized tokens listing item ∧ AllSourced tokens item.value

end

section

variable {tokens ahead : List Token}
  (below : ∀ rest, rest.length < ahead.length → rest <:+ tokens → Sourcing tokens rest)
  (within : ahead <:+ tokens)

include below within

theorem item_sources (listing : Listing) : Goes (read (.item listing)) ahead fun item _ =>
    listing.Allows item.2 ∧ AllSourced tokens item.2 := by
  rw [read_eq, body]
  apply Goes.bind name_advances
  intro name rest passed fewer
  apply Goes.bind (expect_advances (by cases listing <;> decide)).moves
  intro sign middle further _
  have value : Goes (read (.itemValue listing)) middle fun tree _ =>
      listing.Allows tree ∧ AllSourced tokens tree := by
    cases listing with
    | arguments =>
        rw [read_eq, body]
        exact (below middle (Nat.lt_of_le_of_lt further.length_le fewer)
          ((passed.trans further).suffix.trans within)).chain .sum
    | parameters =>
        rw [read_eq, body, read_eq, body]
        apply Halts.map
        exact Goes.imp name_advances fun kind _ _ _ => ⟨⟨kind, rfl⟩, sourced_name kind⟩
  apply Goes.bind value
  exact fun tree last _ returned => Halts.pure ⟨.refl _, returned⟩

theorem series_sources (listing : Listing) : Goes (read (.series listing)) ahead fun items _ =>
    ∀ item ∈ items, Itemized tokens listing item ∧ AllSourced tokens item.value := by
  rw [read_eq, body]
  apply Halts.current
  split
  · exact Halts.pure ⟨.refl _, by simp⟩
  · apply Goes.bind ((ends_read.advances rfl).and (item_sources below within listing))
    rintro ⟨name, value⟩ rest passed ⟨fewer, valued, sourced⟩
    apply Goes.bind (eat_goes (by decide))
    intro comma? behind further eats
    have reached := (passed.trans further).suffix.trans within
    cases eats with
    | missing =>
        refine Halts.pure ⟨.refl _, ?_⟩
        simp only [List.mem_singleton, forall_eq]
        exact ⟨⟨valued, by simp⟩, sourced⟩
    | @found comma behind same =>
        apply Goes.bind
          ((below behind (Nat.lt_of_le_of_lt further.length_le fewer) reached).series listing)
        intro others last _ itemized
        refine Halts.pure ⟨.refl _, ?_⟩
        have member : comma ∈ tokens :=
          (passed.suffix.trans within).subset List.mem_cons_self
        simp only [List.mem_cons, forall_eq_or_imp]
        refine ⟨⟨⟨valued, ?_⟩, sourced⟩, itemized⟩
        rintro comma ⟨⟩
        exact ⟨member, same⟩

theorem argument_list_sources : Sources tokens (read .argumentList) ahead := by
  rw [read_eq, body]
  apply Halts.current
  apply Goes.bind (series_sources below within .arguments).known
  rintro items rest _ ⟨read, itemized⟩
  split
  · exact Halts.throw (.refl _)
  · exact Halts.pure ⟨.refl _, sourced_list within read itemized⟩

theorem call_sources : Sources tokens (read .call) ahead := by
  rw [read_eq, body]
  apply Goes.bind name_advances
  intro callee rest passed fewer
  apply Goes.bind (expect_advances (by decide)).moves
  intro opening middle further _
  apply Goes.bind (below middle (Nat.lt_of_le_of_lt further.length_le fewer)
    ((passed.trans further).suffix.trans within)).argumentList
  intro list last _ sourced
  apply Goes.bind (closing_advances opening).moves
  exact fun closed _ _ _ =>
    Halts.pure ⟨.refl _, sourced_enclosed (by decide) callee opening closed sourced⟩

theorem atom_sources : Sources tokens (read .atom) ahead := by
  have atoms : ∀ {reader : Descent Tree}, Sources tokens reader ahead →
      Sources tokens (.atomOf <$> reader) ahead := by
    intro reader sources
    apply Halts.map
    exact Goes.imp sources fun inner _ _ sourced => sourced_atom_of sourced
  rw [read_eq, body]
  apply Halts.current
  split
  · next kind =>
      apply Goes.bind (advance_advances (by simp [kind]))
      intro opening rest passed fewer
      apply Goes.bind ((below rest fewer (passed.suffix.trans within)).chain .sum)
      rintro inner last _ ⟨_, sourced⟩
      apply Goes.bind (closing_advances opening).moves
      exact fun closed _ _ _ =>
        Halts.pure ⟨.refl _, sourced_node _ (by decide) (by simpa using sourced)⟩
  · apply Halts.following
    split
    · exact atoms (call_sources below within)
    · exact atoms identifier_sources
  · exact atoms literal_sources
  · exact atoms literal_sources
  · apply Halts.following
    split
    · exact atoms literal_sources
    · exact Halts.throw (.refl _)
  · apply Halts.following
    split
    · exact atoms literal_sources
    · exact Halts.throw (.refl _)
  · exact Halts.throw (.refl _)

theorem factor_sources : Sources tokens (read .factor) ahead := by
  rw [read_eq, body]
  apply Goes.bind ((ends_read.advances rfl).and (atom_sources below within))
  rintro base rest passed ⟨fewer, based⟩
  apply Goes.bind (eat_moves (by decide))
  intro caret? behind further _
  cases caret? with
  | none => exact Halts.pure ⟨.refl _, sourced_node _ (by decide) (by simpa using based)⟩
  | some caret =>
      apply Goes.bind (below behind (Nat.lt_of_le_of_lt further.length_le fewer)
        ((passed.trans further).suffix.trans within)).factor
      intro exponent _ _ raised
      refine Halts.pure ⟨.refl _, sourced_node _ (by decide) ?_⟩
      simp only [Piece.every_tree, Piece.every_token, Piece.every_nil, and_true]
      exact ⟨based, raised⟩

theorem chain_rest_sources (level : Level) {earlier : List (Tree × Token)} {last : Tree}
    (operands : ∀ pair ∈ earlier, AllSourced tokens pair.1) (sourced : AllSourced tokens last) :
    Goes (read (.chainRest level earlier last)) ahead fun tree _ =>
      tree.production = level.production ∧ AllSourced tokens tree := by
  rw [read_eq, body]
  apply Halts.current
  split
  · next joins =>
      apply Goes.bind (advance_advances (joins_inside joins))
      intro operator rest passed fewer
      have reached := passed.suffix.trans within
      apply Goes.bind ((below rest fewer reached).operand level)
      intro next behind further following
      refine (below behind (Nat.lt_of_le_of_lt further.length_le fewer)
        (further.suffix.trans reached)).chainRest level _ next ?_ following
      simp only [List.mem_cons, forall_eq_or_imp]
      exact ⟨sourced, operands⟩
  · exact Halts.pure ⟨.refl _, rfl, sourced_chain level operands sourced⟩

theorem chain_sources {level : Level} (first : Sources tokens (read (.operand level)) ahead) :
    Goes (read (.chain level)) ahead fun tree _ =>
      tree.production = level.production ∧ AllSourced tokens tree := by
  rw [read_eq, body]
  apply Goes.bind ((ends_read.advances rfl).and first)
  rintro first rest passed ⟨fewer, sourced⟩
  exact (below rest fewer (passed.suffix.trans within)).chainRest level [] first (by simp) sourced

theorem sourcing_here : Sourcing tokens ahead := by
  have factors : Sources tokens (read (.operand .product)) ahead := by
    rw [read_eq, body]
    exact factor_sources below within
  have terms : Sources tokens (read (.operand .sum)) ahead := by
    rw [read_eq, body]
    exact Goes.imp (chain_sources below within factors) fun _ _ _ returned => returned.2
  have operands : ∀ level, Sources tokens (read (.operand level)) ahead := by
    intro level
    cases level with
    | sum => exact terms
    | product => exact factors
  exact {
    chain := fun level => chain_sources below within (operands level)
    chainRest := fun level _ _ => chain_rest_sources below within level
    operand := operands
    factor := factor_sources below within
    argumentList := argument_list_sources below within
    series := series_sources below within }

end

theorem sourcing {tokens ahead : List Token} (within : ahead <:+ tokens) :
    Sourcing tokens ahead := by
  -- on the number of tokens ahead, as the readers end
  induction fewer : ahead.length using Nat.strongRecOn generalizing ahead with
  | _ count induction =>
      subst fewer
      exact sourcing_here (fun rest less inside => induction rest.length less inside rfl) within

section

variable {tokens ahead : List Token} (within : ahead <:+ tokens)

include within

theorem parameter_list_sources : Sources tokens (read .parameterList) ahead := by
  rw [read_eq, body]
  apply Halts.current
  apply Goes.bind ((sourcing within).series .parameters).known
  rintro items rest _ ⟨read, itemized⟩
  exact Halts.pure ⟨.refl _, sourced_list within read itemized⟩

theorem signature_sources : Sources tokens (read .signature) ahead := by
  rw [read_eq, body]
  apply Goes.bind name_advances
  intro kind rest passed _
  apply Goes.bind (expect_advances (by decide)).moves
  intro opening middle further _
  apply Goes.bind (parameter_list_sources ((passed.trans further).suffix.trans within))
  intro list last _ sourced
  apply Goes.bind (closing_advances opening).moves
  exact fun closed _ _ _ =>
    Halts.pure ⟨.refl _, sourced_enclosed (by decide) kind opening closed sourced⟩

theorem headed_sources {head : Head}
    (signed : ∀ name signature, head = .callable name signature → AllSourced tokens signature) :
    Sources tokens (read (.headed head)) ahead := by
  rw [read_eq, body]
  apply Halts.map
  exact Goes.imp ((sourcing within).chain .sum) fun _ _ _ returned =>
    sourced_finish returned.2 signed

theorem echo_sources : Sources tokens (read .echo) ahead := by
  rw [read_eq, body]
  apply Goes.bind (expect_advances (by decide))
  exact fun keyword rest passed _ => headed_sources (passed.suffix.trans within) (by simp)

theorem assignment_sources : Sources tokens (read .assignment) ahead := by
  rw [read_eq, body]
  apply Goes.bind name_advances
  intro name rest passed _
  apply Goes.bind (expect_advances (by decide)).moves
  exact fun sign middle further _ =>
    headed_sources ((passed.trans further).suffix.trans within) (by simp)

theorem definition_sources : Sources tokens (read .definition) ahead := by
  rw [read_eq, body]
  apply Goes.bind name_advances
  intro name rest passed _
  apply Goes.bind (expect_advances (by decide)).moves
  intro colon middle further _
  have reached := (passed.trans further).suffix.trans within
  apply Halts.current
  apply Halts.following
  split
  · apply Goes.bind advance_moves
    exact fun sign last beyond _ => headed_sources (beyond.suffix.trans reached) (by simp)
  · apply Goes.bind (signature_sources reached)
    intro signature behind beyond sourced
    apply Goes.bind (expect_advances (by decide)).moves
    intro sign last past _
    apply headed_sources ((beyond.trans past).suffix.trans reached)
    rintro _ _ ⟨⟩
    exact sourced
  · apply Goes.bind name_advances
    intro kind behind beyond _
    apply Goes.bind advance_moves
    intro sign last past _
    exact headed_sources ((beyond.trans past).suffix.trans reached) (by simp)
  · exact Halts.throw (.refl _)
  · exact Halts.throw (.refl _)

theorem statement_sources : Sources tokens (read .statement) ahead := by
  rw [read_eq, body]
  apply Halts.current
  apply Halts.following
  split
  · exact echo_sources within
  · exact definition_sources within
  · exact assignment_sources within
  · exact Goes.imp ((sourcing within).chain .sum) fun _ _ _ returned => returned.2

theorem program_sources : Goes (read .program) ahead fun forest _ =>
    ∀ tree ∈ forest, AllSourced tokens tree := by
  induction count : ahead.length using Nat.strongRecOn generalizing ahead with
  | _ count induction =>
      subst count
      have consed : ∀ {tree : Tree} {rest : List Token}, AllSourced tokens tree →
          rest.length < ahead.length → rest <:+ tokens →
          Goes (read .program >>= fun others => pure (tree :: others)) rest fun forest _ =>
            ∀ tree ∈ forest, AllSourced tokens tree := by
        intro tree rest sourced fewer inside
        apply Goes.bind (induction rest.length fewer inside rfl)
        intro others last _ others_sourced
        refine Halts.pure ⟨.refl _, ?_⟩
        simp only [List.mem_cons, forall_eq_or_imp]
        exact ⟨sourced, others_sourced⟩
      rw [read_eq, body]
      apply Halts.current
      split
      · exact Halts.pure ⟨.refl _, by simp⟩
      · next kind =>
          apply Goes.bind (advance_advances (by simp [kind]))
          exact fun newline rest passed fewer => consed (sourced_of_token (by decide) newline) fewer
            (passed.suffix.trans within)
      · apply Goes.bind ((ends_read.advances rfl).and (statement_sources within))
        rintro tree rest passed ⟨fewer, sourced⟩
        have others := consed sourced fewer (passed.suffix.trans within)
        apply Halts.current
        split
        · exact others
        · exact others
        · exact Halts.throw (.refl _)

end

end Descent

/-- Every list in a program was read as a series among the tokens of its text. -/
theorem lists_sourced {source : String} {forest : List Tree} (parsed : parse source = .ok forest) :
    ∃ scanned, tokens source = .ok scanned ∧ ∀ tree ∈ forest, Descent.AllSourced scanned tree := by
  obtain ⟨scanned, scans, read⟩ := parse_eq_ok_iff.mp parsed
  obtain ⟨body, stop, rfl, proper, stops⟩ := tokens_proper scans
  have once : Descent.EndsOnceWithEof (body ++ [stop]) := by
    refine ⟨⟨body, stop, rfl, stops⟩, ?_⟩
    rw [List.dropLast_concat]
    exact fun token member => (proper token member).inside
  obtain ⟨rest, descended⟩ := Descent.program_eq_parse_tokens once
  rw [read] at descended
  refine ⟨_, scans, ?_⟩
  rcases Descent.program_sources (List.suffix_refl (body ++ [stop])) with
    ⟨trees, last, ended, _, sourced⟩ | ⟨error, last, ended, _⟩
  · cases descended.symm.trans ended
    exact sourced
  · cases descended.symm.trans ended

end Reckon
