import Reckon.Proofs.Grammar.Soundness
import Reckon.Proofs.Tree.Extent

/-!
Where the trees of a parsed text stand. A reading keeps parts of the tokens behind it: trees, signs,
or no more than texts. A token adds its own part, and a construct that ends puts one tree in
the place of its parts, with a location that spans the tokens of them all.
-/

namespace Reckon

inductive Part where
  | tree (tree : Tree)
  | sign (token : Token)
  /-- A sign of which the text is kept and the place is not. -/
  | mark (text : String)
  /-- A sign that a number must follow at once. -/
  | held (token : Token)

namespace Part

/-- An identifier that is a tree of its own. -/
abbrev named (token : Token) : Part := .tree (.ofToken .identifier token)

def piece : Part → Piece Tree
  | .tree inner => .tree inner
  | .sign token | .held token => .token token.text
  | .mark text => .token text

/-- The part is what is kept of the tokens. -/
def Covers : Part → List Token → Prop
  | .tree inner, tokens => inner.Covers tokens []
  | .sign token, tokens => tokens = [token] ∧ Lexeme.symbol token.text = .plain token.word
  | .mark text, tokens => ∃ token, tokens = [token] ∧ Lexeme.symbol text = .plain token.word
  | .held token, tokens =>
      tokens = [token] ∧ token.IsProper ∧ (token.kind = .plus ∨ token.kind = .minus)

/-- The parts are what is kept of the tokens, in order. -/
inductive AllCover : List Part → List Token → Prop where
  | nil : AllCover [] []
  | cons {part : Part} {parts : List Part} {front back : List Token} (first : part.Covers front)
      (rest : AllCover parts back) : AllCover (part :: parts) (front ++ back)

variable {part : Part} {parts first second inner : List Part} {tokens others : List Token}
  {tree : Tree} {location other : Location}

theorem AllCover.single (covers : part.Covers tokens) : AllCover [part] tokens := by
  have alone := AllCover.cons covers .nil
  rwa [List.append_nil] at alone

theorem AllCover.append (covers : AllCover first tokens) (more : AllCover second others) :
    AllCover (first ++ second) (tokens ++ others) := by
  induction covers with
  | nil => exact more
  | cons here _ induction =>
      rw [List.append_assoc]
      exact .cons here induction

theorem AllCover.split (covers : AllCover (first ++ second) tokens) :
    ∃ front back, tokens = front ++ back ∧ AllCover first front ∧ AllCover second back := by
  induction first generalizing tokens with
  | nil => exact ⟨[], tokens, rfl, .nil, covers⟩
  | cons part first induction =>
      cases covers with
      | @cons _ _ front _ here rest =>
          obtain ⟨middle, back, rfl, before, after⟩ := induction rest
          exact ⟨front ++ middle, back, by rw [List.append_assoc], .cons here before, after⟩

theorem of_cover_single (covers : AllCover [part] tokens) : part.Covers tokens := by
  cases covers with
  | cons here rest =>
      cases rest
      rwa [List.append_nil]

/-- The trees have the tokens between them. -/
theorem of_cover_trees {forest : List Tree} (covers : AllCover (forest.map .tree) tokens) :
    ∃ owned : List (List Token), tokens = owned.flatten ∧
      List.Forall₂ (fun tree own => tree.Covers own []) forest owned := by
  induction forest generalizing tokens with
  | nil =>
      cases covers
      exact ⟨[], rfl, .nil⟩
  | cons tree forest induction =>
      cases covers with
      | @cons _ _ front _ here rest =>
          obtain ⟨owned, rfl, all⟩ := induction rest
          exact ⟨front :: owned, rfl, .cons here all⟩

/-- Parts become pieces of a tree whose own tokens are all signs. -/
theorem AllCover.pieces (covers : AllCover parts tokens) {production : Production}
    (symbols : ∀ text, Lexeme.ofToken production text = .symbol text) :
    Tree.CoversPieces production (parts.map piece) tokens := by
  induction covers with
  | nil => exact .nil
  | @cons part _ _ back here _ induction =>
      cases part with
      | tree tree => exact .tree here.pieces (here.extent.append back) induction
      | sign token =>
          obtain ⟨rfl, same⟩ := here
          exact .token ((symbols token.text).trans same) induction
      | mark text =>
          obtain ⟨token, rfl, same⟩ := here
          exact .token ((symbols text).trans same) induction
      | held token =>
          obtain ⟨rfl, proper, kind⟩ := here
          refine .token ((symbols token.text).trans ?_) induction
          rcases kind with kind | kind <;>
            exact (Token.symbol_of_proper proper (by rw [kind]; rfl)).2

/-- The location spans whatever tokens the parts are kept of. -/
def Locates (parts : List Part) (location : Location) : Prop :=
  ∀ tokens, Ascending tokens → AllCover parts tokens → location.Spans tokens []

/-- The location is that of the parts, or of some of them that come first. -/
def Opens (parts : List Part) (location : Location) : Prop :=
  ∃ own rest, parts = own ++ rest ∧ Locates own location

/-- The tree consists of whatever tokens the parts are kept of. -/
def Reduces (parts : List Part) (tree : Tree) : Prop :=
  ∀ tokens, Ascending tokens → AllCover parts tokens → tree.Covers tokens []

theorem locates_tree (tree : Tree) : Locates [.tree tree] tree.location :=
  fun _ _ covers => (of_cover_single covers).extent

theorem locates_sign (token : Token) : Locates [.sign token] token.location := by
  intro tokens _ covers
  rw [(of_cover_single covers).1]
  exact Location.spans_token token []

theorem Locates.opens (locates : Locates parts location) (rest : List Part) :
    Opens (parts ++ rest) location := ⟨parts, rest, rfl, locates⟩

/-- From the location of what comes first to that of what comes last. -/
theorem Opens.through (opens : Opens first location) (locates : Locates second other) :
    Locates (first ++ second) (location.through other) := by
  obtain ⟨own, rest, rfl, begins⟩ := opens
  intro tokens ascending covers
  obtain ⟨front, back, rfl, before, after⟩ := covers.split
  obtain ⟨start, middle, rfl, mine, _⟩ := before.split
  have ends := locates back (ascending.right (start ++ middle)) after
  exact (begins start ascending.left.left mine).through middle ends ascending

/-- A location is carried backwards over parts that come in groups. -/
theorem locates_fold {α : Type} (parts : α → List Part) (place : α → Location)
    (opens : ∀ item, Opens (parts item) (place item)) {last : List Part}
    (locates : Locates last location) (earlier : List α) :
    Locates (earlier.reverse.flatMap parts ++ last)
      (earlier.foldl (fun location item => (place item).through location) location) := by
  induction earlier generalizing last location with
  | nil => exact locates
  | cons item earlier induction =>
      have longer := induction ((opens item).through locates)
      rw [List.reverse_cons, List.flatMap_append, List.flatMap_singleton, List.append_assoc]
      exact longer

theorem reduces_node {production : Production} {pieces : List (Piece Tree)}
    (symbols : ∀ text, Lexeme.ofToken production text = .symbol text)
    (same : pieces = parts.map piece) (locates : Locates parts location) :
    Reduces parts (.node production pieces location) := by
  intro tokens ascending covers
  refine ⟨?_, locates tokens ascending covers⟩
  rw [same]
  exact covers.pieces symbols

/-- A tree takes the place of its parts. -/
theorem AllCover.reduce (covers : AllCover parts tokens) (ascending : Ascending tokens)
    (first : List Part) (same : parts = first ++ inner) (reduces : Reduces inner tree) :
    AllCover (first ++ [.tree tree]) tokens := by
  rw [same] at covers
  obtain ⟨front, back, rfl, before, after⟩ := covers.split
  exact before.append (.single (reduces back (ascending.right front) after))

theorem Reduces.after (reduces : Reduces inner tree)
    {whole : Tree} (outer : Reduces (first ++ [.tree tree]) whole) :
    Reduces (first ++ inner) whole :=
  fun tokens ascending covers =>
    outer tokens ascending (covers.reduce ascending first rfl reduces)

theorem reduces_atom_of (inner : Tree) : Reduces [.tree inner] (.atomOf inner) :=
  reduces_node (fun _ => rfl) rfl (locates_tree inner)

theorem reduces_group (opening closing : Token) (inner : Tree) :
    Reduces [.sign opening, .tree inner, .sign closing] (.group opening inner closing) :=
  reduces_node (fun _ => rfl) rfl
    (((locates_sign opening).opens [.tree inner]).through (locates_sign closing))

theorem reduces_factor_of (base : Tree) : Reduces [.tree base] (.factorOf base) :=
  reduces_node (fun _ => rfl) rfl (locates_tree base)

theorem reduces_power (base exponent : Tree) :
    Reduces [.tree base, .mark "^", .tree exponent] (.power base exponent) :=
  reduces_node (fun _ => rfl) rfl
    (((locates_tree base).opens [.mark "^"]).through (locates_tree exponent))

def baseParts (base : Tree) : List Part := [.tree base, .mark "^"]

/-- The parts of an operand with the operator after it. -/
def operandParts (operand : Tree × Token) : List Part := [.tree operand.1, .mark operand.2.text]

theorem reduces_raise_all (bases : List Tree) (exponent : Tree) :
    Reduces (bases.reverse.flatMap baseParts ++ [.tree exponent]) (raiseAll bases exponent) := by
  induction bases generalizing exponent with
  | nil => exact fun _ _ covers => of_cover_single covers
  | cons base bases induction =>
      have raised := (reduces_power base exponent).after (induction (.power base exponent))
      rw [List.reverse_cons, List.flatMap_append, List.flatMap_singleton, List.append_assoc]
      exact raised

theorem reduces_finish_factor (bases : List Tree) (atom : Tree) :
    Reduces (bases.reverse.flatMap baseParts ++ [.tree atom]) (finishFactor bases atom) :=
  (reduces_factor_of atom).after (reduces_raise_all bases (.factorOf atom))

theorem chain_pieces_parts (earlier : List (Tree × Token)) (parts : List Part) :
    chainPieces earlier (parts.map piece) =
      (earlier.reverse.flatMap operandParts ++ parts).map piece := by
  induction earlier generalizing parts with
  | nil => rfl
  | cons operand earlier induction =>
      have longer := induction (operandParts operand ++ parts)
      rw [List.reverse_cons, List.flatMap_append, List.flatMap_singleton, List.append_assoc]
      exact longer

theorem reduces_finish_chain {production : Production}
    (symbols : ∀ text, Lexeme.ofToken production text = .symbol text)
    (earlier : List (Tree × Token)) (last : Tree) :
    Reduces (earlier.reverse.flatMap operandParts ++ [.tree last])
      (finishChain production earlier last) :=
  reduces_node symbols (chain_pieces_parts earlier [.tree last])
    (locates_fold operandParts (·.1.location)
      (fun operand => (locates_tree operand.1).opens [.mark operand.2.text])
      (locates_tree last) earlier)

end Part

open Reckon.Part (AllCover Locates Opens Reduces baseParts operandParts of_cover_single piece)

namespace Chain

def parts (chain : Chain) : List Part :=
  chain.terms.reverse.flatMap operandParts ++ chain.factors.reverse.flatMap operandParts ++
    chain.bases.reverse.flatMap baseParts

@[simp] theorem empty_parts : empty.parts = [] := rfl

theorem reduces_finish_term (chain : Chain) (atom : Tree) :
    Reduces (chain.factors.reverse.flatMap operandParts ++
      (chain.bases.reverse.flatMap baseParts ++ [.tree atom])) (chain.finishTerm atom) :=
  (Part.reduces_finish_factor chain.bases atom).after
    (Part.reduces_finish_chain (fun _ => rfl) chain.factors _)

theorem reduces_finish (chain : Chain) (atom : Tree) :
    Reduces (chain.parts ++ [.tree atom]) (chain.finish atom) := by
  rw [parts, List.append_assoc, List.append_assoc]
  exact (chain.reduces_finish_term atom).after
    (Part.reduces_finish_chain (fun _ => rfl) chain.terms (chain.finishTerm atom))

end Chain

namespace ListItem

def parts (mark : String) (item : ListItem) : List Part :=
  .named item.name :: .mark mark :: .tree item.value :: (item.comma?.map .sign).toList

theorem pieces_parts (mark : String) (item : ListItem) :
    item.pieces mark = (item.parts mark).map piece := by
  obtain ⟨name, value, comma?⟩ := item
  cases comma? <;> rfl

theorem locates_parts (mark : String) (item : ListItem) :
    Locates (item.parts mark) item.location := by
  obtain ⟨name, value, comma?⟩ := item
  cases comma? with
  | none => exact ((Part.locates_tree _).opens [.mark mark]).through (Part.locates_tree value)
  | some comma =>
      exact ((Part.locates_tree _).opens [.mark mark, .tree value]).through
        (Part.locates_sign comma)

end ListItem

theorem list_pieces_parts (mark : String) (items : List ListItem) (parts : List Part) :
    listPieces mark items (parts.map piece) =
      (items.reverse.flatMap (ListItem.parts mark) ++ parts).map piece := by
  induction items generalizing parts with
  | nil => rfl
  | cons item items induction =>
      have longer := induction (item.parts mark ++ parts)
      rw [List.map_append, ← ListItem.pieces_parts] at longer
      rw [List.reverse_cons, List.flatMap_append, List.flatMap_singleton, List.append_assoc]
      exact longer

/-- A list consists of the tokens of its groups. An empty one stands where the parenthesis after it
starts. -/
theorem finish_list_covers {production : Production} {mark : String} {items : List ListItem}
    {closing : Token} {tokens : List Token}
    (symbols : ∀ text, Lexeme.ofToken production text = .symbol text)
    (closed : closing.kind = .rightParen) (ascending : Ascending tokens)
    (covers : AllCover (items.reverse.flatMap (ListItem.parts mark)) tokens) :
    (finishList production mark items closing).Covers tokens [closing] := by
  refine ⟨?_, ?_⟩
  · have pieces := list_pieces_parts mark items []
    rw [List.append_nil] at pieces
    have all := covers.pieces symbols
    rw [← pieces] at all
    exact all
  · cases items with
    | nil =>
        cases covers
        exact .empty closed
    | cons last earlier =>
        have locates := Part.locates_fold (ListItem.parts mark) ListItem.location
          (fun item => by simpa using (item.locates_parts mark).opens [])
          (last.locates_parts mark) earlier
        rw [List.reverse_cons, List.flatMap_append, List.flatMap_singleton] at covers
        exact (locates tokens ascending covers).append [closing]

/-- A construct that ends with a list in parentheses. -/
theorem reduces_listed {production listed : Production} {mark : String} {items : List ListItem}
    {name closing : Token} {opening : String}
    (symbols : ∀ text, Lexeme.ofToken production text = .symbol text)
    (listSymbols : ∀ text, Lexeme.ofToken listed text = .symbol text)
    (closed : closing.kind = .rightParen) :
    Reduces (.named name :: .mark opening :: items.reverse.flatMap (ListItem.parts mark) ++
      [.sign closing])
      (.node production [.tree (.ofToken .identifier name), .token opening,
        .tree (finishList listed mark items closing), .token closing.text]
        (name.location.through closing.location)) := by
  intro tokens ascending covers
  have located := ((Part.locates_tree _).opens (.mark opening ::
    items.reverse.flatMap (ListItem.parts mark))).through (Part.locates_sign closing) tokens
      ascending covers
  refine ⟨?_, located⟩
  obtain ⟨front, back, rfl, before, after⟩ := covers.split
  obtain ⟨rfl, closes⟩ := of_cover_single after
  cases before with
  | @cons _ _ front _ named rest =>
      cases rest with
      | @cons _ _ _ inner opened list =>
          obtain ⟨token, rfl, opens⟩ := opened
          have inside := finish_list_covers listSymbols closed
            (Ascending.right [token] (ascending.left.right front)) list
          rw [List.append_assoc]
          refine .tree named.pieces (named.extent.append _)
            (.token ((symbols opening).trans opens) ?_)
          exact .tree inside.pieces inside.extent (.token ((symbols _).trans closes) .nil)

namespace OpenCall

def parts (call : OpenCall) : List Part :=
  .named call.callee :: .mark call.opening.text ::
    call.arguments.reverse.flatMap (ListItem.parts "=")

theorem reduces_finish (call : OpenCall) {closing : Token} (closed : closing.kind = .rightParen) :
    Reduces (call.parts ++ [.sign closing]) (call.finish closing) := by
  have listed : Reduces (call.parts ++ [.sign closing]) (.node .call
      [.tree (.ofToken .identifier call.callee), .token call.opening.text,
        .tree (finishList .arguments "=" call.arguments closing), .token closing.text]
      (call.callee.location.through closing.location)) :=
    reduces_listed (fun _ => rfl) (fun _ => rfl) closed
  exact fun tokens ascending covers =>
    Part.reduces_atom_of _ tokens ascending (.single (listed tokens ascending covers))

end OpenCall

namespace OpenSignature

def parts (signature : OpenSignature) : List Part :=
  .named signature.kind :: .mark signature.opening.text ::
    signature.parameters.reverse.flatMap (ListItem.parts ":")

theorem reduces_finish (signature : OpenSignature) {closing : Token}
    (closed : closing.kind = .rightParen) :
    Reduces (signature.parts ++ [.sign closing]) (signature.finish closing) :=
  reduces_listed (fun _ => rfl) (fun _ => rfl) closed

end OpenSignature

namespace Head

def parts : Head → List Part
  | .bare => []
  | .echo keyword => [.sign keyword]
  | .assign name => [.named name, .mark "="]
  | .define name none => [.named name, .mark ":", .mark "="]
  | .define name (some kind) => [.named name, .mark ":", .named kind, .mark "="]
  | .callable name signature => [.named name, .mark ":", .tree signature, .mark "="]

theorem reduces_finish (head : Head) (value : Tree) :
    Reduces (head.parts ++ [.tree value]) (head.finish value) := by
  have named : ∀ {production : Production} (name : Token) (rest : List Part),
      (∀ text, Lexeme.ofToken production text = .symbol text) →
      Reduces (.named name :: rest ++ [.tree value])
        (.node production ((.named name :: rest ++ [Part.tree value]).map piece)
          (name.location.through value.location)) :=
    fun name rest symbols => Part.reduces_node symbols rfl
      (((Part.locates_tree _).opens rest).through (Part.locates_tree value))
  match head with
  | .bare => exact fun _ _ covers => of_cover_single covers
  | .echo keyword =>
      exact Part.reduces_node (fun _ => rfl) rfl
        (((Part.locates_sign keyword).opens []).through (Part.locates_tree value))
  | .assign name => exact named name [.mark "="] fun _ => rfl
  | .define name none => exact named name [.mark ":", .mark "="] fun _ => rfl
  | .define name (some kind) => exact named name [.mark ":", .named kind, .mark "="] fun _ => rfl
  | .callable name signature =>
      exact named name [.mark ":", .tree signature, .mark "="] fun _ => rfl

end Head

namespace Opening

def parts : Opening → List Part
  | .group opening around => around.parts ++ [.sign opening]
  | .argument call name around => around.parts ++ call.parts ++ [.named name, .mark "="]

end Opening

namespace Inside

def parts (inside : Inside) : List Part :=
  inside.head.parts ++ inside.openings.reverse.flatMap Opening.parts ++ inside.chain.parts

@[simp] theorem start_parts (head : Head) : (start head).parts = head.parts := by
  simp [start, parts]

end Inside

namespace Stage

def parts : Stage → List Part
  | .start => []
  | .named name => [.named name]
  | .definition name => [.named name, .mark ":"]
  | .kindRead name kind => [.named name, .mark ":", .named kind]
  | .parameterDue signature => .named signature.name :: .mark ":" :: signature.parts
  | .parameterNamed signature name =>
      .named signature.name :: .mark ":" :: signature.parts ++ [.named name]
  | .parameterKindDue signature name =>
      .named signature.name :: .mark ":" :: signature.parts ++ [.named name, .mark ":"]
  | .parameterRead signature name kind =>
      .named signature.name :: .mark ":" :: signature.parts ++ [.named name, .mark ":", .named kind]
  | .signatureRead name signature => [.named name, .mark ":", .tree signature]
  | .atomDue inside => inside.parts
  | .signRead inside sign => inside.parts ++ [.held sign]
  | .nameRead inside name => inside.parts ++ [.named name]
  | .atomRead inside atom => inside.parts ++ [.tree atom]
  | .argumentDue inside call => inside.parts ++ call.parts
  | .argumentNamed inside call name => inside.parts ++ call.parts ++ [.named name]

end Stage

namespace Reading

/-- What the reading keeps of all tokens behind it. -/
def parts (reading : Reading) : List Part :=
  reading.finished.reverse.map .tree ++ reading.stage.parts

variable {finished : List Tree} {stage : Stage} {inside : Inside} {tokens : List Token}

theorem atom_begins_parts (begins : AtomBegins stage inside) : stage.parts = inside.parts := by
  cases begins <;> rfl

theorem name_read_parts {name : Token} (read : NameRead stage inside name) :
    stage.parts = inside.parts ++ [.named name] := by
  cases read <;> rfl

/-- An identifier that is not followed by a parenthesis is an atom. -/
theorem atom_read_covered {atom : Tree} (read : AtomRead stage inside atom)
    (ascending : Ascending tokens) (covered : AllCover (Reading.parts ⟨finished, stage⟩) tokens) :
    AllCover (finished.reverse.map .tree ++ inside.parts ++ [.tree atom]) tokens := by
  cases read with
  | whole => simpa [parts, Stage.parts] using covered
  | name read =>
      rw [parts, name_read_parts read, ← List.append_assoc] at covered
      exact covered.reduce ascending _ rfl (Part.reduces_atom_of _)

/-- An expression that ends is one tree behind what it stands inside. -/
theorem expr_covered {head : Head} {openings : List Opening} {chain : Chain} {atom : Tree}
    (read : AtomRead stage ⟨head, openings, chain⟩ atom) (ascending : Ascending tokens)
    (covered : AllCover (Reading.parts ⟨finished, stage⟩) tokens) :
    AllCover (finished.reverse.map .tree ++ head.parts ++
      openings.reverse.flatMap Opening.parts ++ [.tree (chain.finish atom)]) tokens := by
  exact (atom_read_covered read ascending covered).reduce ascending _ (by simp [Inside.parts])
    (chain.reduces_finish atom)

theorem ended_covered {head : Head} {chain : Chain} {atom : Tree}
    (read : AtomRead stage ⟨head, [], chain⟩ atom) (ascending : Ascending tokens)
    (covered : AllCover (Reading.parts ⟨finished, stage⟩) tokens) :
    AllCover ((head.finish (chain.finish atom) :: finished).reverse.map .tree) tokens := by
  have reduced := (expr_covered read ascending covered).reduce ascending
    (finished.reverse.map .tree) (by simp) (head.reduces_finish (chain.finish atom))
  simpa using reduced

theorem name_covers {name : Token} (kind : name.kind = .ident) :
    Part.Covers (.named name) [name] :=
  ⟨.token (Token.name_of_ident kind) .nil, Location.spans_token name []⟩

theorem newline_covers {token : Token} (proper : token.IsProper) (kind : token.kind = .newline) :
    Part.Covers (.tree (.ofToken .newline token)) [token] :=
  ⟨.token (Token.symbol_of_proper proper (by rw [kind]; rfl)).2 .nil,
    Location.spans_token token []⟩

theorem number_covers {production : Production} {number : Token}
    (leaf : NumberLeaf number.kind production) (proper : number.IsProper) :
    Part.Covers (.tree (.atomOf (.ofToken production number))) [number] := by
  have same := List.singleton_inj.mp ((Tree.of_token_lexemes production number).symm.trans
    (number_lexemes proper leaf))
  have spans := Location.spans_token number []
  have pieces : Tree.CoversPieces .atom [.tree (.ofToken production number)] ([number] ++ []) :=
    .tree (.token same .nil) spans .nil
  exact ⟨pieces, spans⟩

theorem literal_covers {production : Production} {sign number : Token}
    (signed : sign.IsProper ∧ (sign.kind = .plus ∨ sign.kind = .minus))
    (leaf : NumberLeaf number.kind production) (adjacent : sign.isAdjacent number = true)
    (ascending : Ascending [sign, number]) :
    Part.Covers (.tree (literal production sign number)) [sign, number] := by
  have same := List.singleton_inj.mp (literal_lexemes signed leaf)
  have spans := (Location.spans_token sign []).through [] (Location.spans_token number [])
    ascending
  have pieces : Tree.CoversPieces .atom [.tree (.leaf production (sign.text ++ number.text)
      (sign.location.through number.location))] ([sign, number] ++ []) :=
    .tree (.signed same adjacent .nil) spans .nil
  exact ⟨pieces, spans⟩

/-- A token adds its part to those before, and then the parts of what it ends become one tree. -/
theorem covered_by_takes {reading next : Reading} {token : Token}
    (takes : Takes reading token next) (proper : token.IsProper)
    (ascending : Ascending (tokens ++ [token])) (covered : AllCover reading.parts tokens) :
    AllCover next.parts (tokens ++ [token]) := by
  have name : token.kind = .ident → ∀ {parts}, AllCover parts tokens →
      AllCover (parts ++ [.named token]) (tokens ++ [token]) :=
    fun kind _ before => before.append (.single (name_covers kind))
  have sign : ∀ {kind text}, token.kind = kind → kind.symbol? = some text →
      ∀ {parts}, AllCover parts tokens →
      AllCover (parts ++ [.sign token]) (tokens ++ [token]) := by
    intro kind text same symbol parts before
    have word := (Token.symbol_of_proper proper (by rw [same]; exact symbol)).2
    exact before.append (.single ⟨rfl, word⟩)
  have mark : ∀ {kind text}, token.kind = kind → kind.symbol? = some text →
      ∀ {parts}, AllCover parts tokens →
      AllCover (parts ++ [.mark text]) (tokens ++ [token]) := by
    intro kind text same symbol parts before
    obtain ⟨rfl, word⟩ := Token.symbol_of_proper proper (by rw [same]; exact symbol)
    exact before.append (.single ⟨token, rfl, word⟩)
  have operator : (∃ text, token.kind.symbol? = some text) → ∀ {parts}, AllCover parts tokens →
      AllCover (parts ++ [.mark token.text]) (tokens ++ [token]) := by
    rintro ⟨text, symbol⟩ parts before
    rw [(Token.symbol_of_proper proper symbol).1]
    exact mark rfl symbol before
  have earlier := ascending.left
  cases takes with
  | newline kind =>
      simpa [parts, Stage.parts] using covered.append (.single (newline_covers proper kind))
  | stop kind => exact absurd kind proper.inside
  | echo kind => simpa [parts, Stage.parts, Head.parts] using sign kind rfl covered
  | name kind => simpa [parts, Stage.parts] using name kind covered
  | assign kind => simpa [parts, Stage.parts, Head.parts] using mark kind rfl covered
  | colon kind => simpa [parts, Stage.parts] using mark kind rfl covered
  | define kind => simpa [parts, Stage.parts, Head.parts] using mark kind rfl covered
  | declared kind => simpa [parts, Stage.parts] using name kind covered
  | defineAs kind => simpa [parts, Stage.parts, Head.parts] using mark kind rfl covered
  | @openSignature finished defined declared _ kind =>
      have text := (Token.symbol_of_proper proper (by rw [kind]; rfl)).1
      simpa [parts, Stage.parts, OpenSignature.parts, text] using mark kind rfl covered
  | parameterName kind => simpa [parts, Stage.parts] using name kind covered
  | parameterColon kind => simpa [parts, Stage.parts] using mark kind rfl covered
  | parameterKind kind => simpa [parts, Stage.parts] using name kind covered
  | parameterComma kind =>
      simpa [parts, Stage.parts, OpenSignature.parts, ListItem.parts] using sign kind rfl covered
  | @lastParameter finished signature parameter declared _ kind =>
      have ended := OpenSignature.reduces_finish { signature with parameters :=
        ⟨parameter, .ofToken .identifier declared, none⟩ :: signature.parameters } kind
      have reduced := (sign kind rfl covered).reduce ascending (finished.reverse.map .tree ++
        [.named signature.name, .mark ":"])
        (by simp [parts, Stage.parts, OpenSignature.parts, ListItem.parts]) ended
      simpa [parts, Stage.parts] using reduced
  | @closeSignature finished signature _ kind =>
      have reduced := (sign kind rfl covered).reduce ascending (finished.reverse.map .tree ++
        [.named signature.name, .mark ":"]) (by simp [parts, Stage.parts])
        (signature.reduces_finish kind)
      simpa [parts, Stage.parts] using reduced
  | defineCallable kind => simpa [parts, Stage.parts, Head.parts] using mark kind rfl covered
  | openGroup begins kind =>
      rw [parts, atom_begins_parts begins] at covered
      simpa [parts, Stage.parts, Inside.parts, Inside.enter, Opening.parts] using
        sign kind rfl covered
  | number begins leaf =>
      rw [parts, atom_begins_parts begins] at covered
      simpa [parts, Stage.parts] using covered.append (.single (number_covers leaf proper))
  | sign begins kind =>
      rw [parts, atom_begins_parts begins] at covered
      have held : Part.Covers (.held token) [token] := ⟨rfl, proper, kind⟩
      simpa [parts, Stage.parts] using covered.append (.single held)
  | signedNumber adjacent leaf =>
      rw [parts, Stage.parts, ← List.append_assoc] at covered
      obtain ⟨front, back, rfl, before, after⟩ := covered.split
      obtain ⟨rfl, signed⟩ := of_cover_single after
      rw [List.append_assoc] at ascending
      have whole := before.append (.single (literal_covers signed leaf adjacent
        (ascending.right front)))
      simpa [parts, Stage.parts] using whole
  | atomName kind => simpa [parts, Stage.parts] using name kind covered
  | openCall read kind =>
      have text := (Token.symbol_of_proper proper (by rw [kind]; rfl)).1
      rw [parts, name_read_parts read] at covered
      simpa [parts, Stage.parts, OpenCall.parts, text] using mark kind rfl covered
  | argumentName kind => simpa [parts, Stage.parts] using name kind covered
  | argumentEquals kind =>
      simpa [parts, Stage.parts, Inside.parts, Inside.enter, Opening.parts] using
        mark kind rfl covered
  | @closeCall finished inside call _ kind =>
      have reduced := (sign kind rfl covered).reduce ascending
        (finished.reverse.map .tree ++ inside.parts) (by simp [parts, Stage.parts])
        (call.reduces_finish kind)
      simpa [parts, Stage.parts] using reduced
  | caret read kind =>
      simpa [parts, Stage.parts, Inside.parts, Chain.parts, Chain.raise, baseParts] using
        mark kind rfl (atom_read_covered read earlier covered)
  | @multiplicative finished stage inside atom _ read kind =>
      have reduced := (atom_read_covered read earlier covered).reduce earlier
        (finished.reverse.map .tree ++ inside.head.parts ++
          inside.openings.reverse.flatMap Opening.parts ++
          inside.chain.terms.reverse.flatMap operandParts ++
          inside.chain.factors.reverse.flatMap operandParts)
        (by simp [Inside.parts, Chain.parts])
        (Part.reduces_finish_factor inside.chain.bases atom)
      simpa [parts, Stage.parts, Inside.parts, Chain.parts, Chain.multiply, operandParts] using
        operator (by rcases kind with kind | kind <;> rw [kind] <;> exact ⟨_, rfl⟩) reduced
  | @additive finished stage inside atom _ read kind =>
      have reduced := (atom_read_covered read earlier covered).reduce earlier
        (finished.reverse.map .tree ++ inside.head.parts ++
          inside.openings.reverse.flatMap Opening.parts ++
          inside.chain.terms.reverse.flatMap operandParts)
        (by simp [Inside.parts, Chain.parts]) (inside.chain.reduces_finish_term atom)
      simpa [parts, Stage.parts, Inside.parts, Chain.parts, Chain.add, operandParts] using
        operator (by rcases kind with kind | kind <;> rw [kind] <;> exact ⟨_, rfl⟩) reduced
  | endLine read kind =>
      simpa [parts, Stage.parts] using (ended_covered read earlier covered).append
        (.single (newline_covers proper kind))
  | endProgram read kind => exact absurd kind proper.inside
  | @closeGroup finished stage head chain around opening _ openings atom read kind =>
      have reduced := (sign kind rfl (expr_covered read earlier covered)).reduce ascending
        (finished.reverse.map .tree ++ head.parts ++ openings.reverse.flatMap Opening.parts ++
          around.parts) (by simp [Opening.parts])
        (Part.reduces_group opening token (chain.finish atom))
      simpa [parts, Stage.parts, Inside.parts] using reduced
  | argumentComma read kind =>
      simpa [parts, Stage.parts, Inside.parts, Opening.parts, OpenCall.parts, ListItem.parts] using
        sign kind rfl (expr_covered read earlier covered)
  | @lastArgument finished stage head chain around call argument _ openings atom read kind _ =>
      have ended := OpenCall.reduces_finish { call with arguments :=
        ⟨argument, chain.finish atom, none⟩ :: call.arguments } kind
      have reduced := (sign kind rfl (expr_covered read earlier covered)).reduce ascending
        (finished.reverse.map .tree ++ head.parts ++ openings.reverse.flatMap Opening.parts ++
          around.parts) (by simp [Opening.parts, OpenCall.parts, ListItem.parts]) ended
      simpa [parts, Stage.parts, Inside.parts] using reduced

theorem covered_by_run {reading last : Reading} {before : List Token}
    (ran : reading.run tokens = .ok last) (proper : ∀ token ∈ tokens, token.IsProper)
    (ascending : Ascending (before ++ tokens)) (covered : AllCover reading.parts before) :
    AllCover last.parts (before ++ tokens) := by
  induction tokens generalizing reading before with
  | nil =>
      cases ran
      simpa using covered
  | cons token tokens induction =>
      obtain ⟨next, takes, rest⟩ := takes_of_run_cons ran
      rw [List.append_cons] at ascending
      have nextCovered := covered_by_takes takes (proper token (by simp)) ascending.left covered
      rw [List.append_cons]
      exact induction rest (fun other member => proper other (by simp [member])) ascending
        nextCovered

/-- The end of input leaves the trees with all the tokens before it. -/
theorem covered_by_stop {reading last : Reading} {stop : Token}
    (takes : Takes reading stop last) (kind : stop.kind = .eof) (ascending : Ascending tokens)
    (covered : AllCover reading.parts tokens) :
    AllCover (last.finished.reverse.map .tree) tokens := by
  cases takes with
  | stop => simpa [parts, Stage.parts] using covered
  | endProgram read => exact ended_covered read ascending covered
  | number _ leaf => rw [kind] at leaf; cases leaf
  | signedNumber _ leaf => rw [kind] at leaf; cases leaf
  | _ => simp_all

end Reading

section

variable {source : String} {forest : List Tree}

/-- The trees of a program cover its tokens up to the end of input. -/
theorem covered_of_parse (parsed : parse source = .ok forest) :
    ∃ body stop, tokens source = .ok (body ++ [stop]) ∧ stop.kind = .eof ∧
      AllCover (forest.map .tree) body := by
  obtain ⟨body, stop, reading, last, scanned, proper, ends, ran, takes, rfl⟩ := run_of_parse parsed
  have ascending := (tokens_placed scanned).2.left
  have read : AllCover reading.parts ([] ++ body) :=
    Reading.covered_by_run ran proper ascending .nil
  exact ⟨body, stop, scanned, ends, Reading.covered_by_stop takes ends ascending read⟩

theorem stands_of_covered {body : List Token} {stop : Token}
    (scanned : tokens source = .ok (body ++ [stop])) (covered : AllCover (forest.map .tree) body) :
    ∀ tree ∈ forest, tree.Everywhere (Tree.StandsIn source.toList body) := by
  obtain ⟨placed, ascending⟩ := tokens_placed scanned
  have pieces : Tree.CoversPieces .expr _ body := covered.pieces fun _ => rfl
  intro tree member
  have among : .tree tree ∈ (forest.map Part.tree).map piece := by
    simpa [piece] using member
  obtain ⟨before, own, behind, whole, covers⟩ := pieces.of_member among
  exact covers.stands whole (fun token inside => placed token (List.mem_append_left [stop] inside))
    ascending.left

end

/-- The tokens of a parsed text fall apart into those of its trees. Every node in these begins where
its first token does and ends where its last one does, an empty list standing where the parenthesis
after it starts; it holds the nodes inside it, which come one behind the other as the trees of the
text do; a leaf has the text under its span, and the position of a node is that of its start. -/
theorem parsed_trees_stand_in_source {source : String} {forest : List Tree}
    (parsed : parse source = .ok forest) :
    ∃ body stop, tokens source = .ok (body ++ [stop]) ∧ stop.kind = .eof ∧
      (∃ owned : List (List Token), body = owned.flatten ∧
        List.Forall₂ (fun tree own => tree.Covers own []) forest owned) ∧
      (∀ tree ∈ forest, tree.Everywhere (Tree.StandsIn source.toList body)) ∧
      forest.Pairwise fun earlier later => earlier.span.stop ≤ later.span.start := by
  obtain ⟨body, stop, scanned, ends, covered⟩ := covered_of_parse parsed
  refine ⟨body, stop, scanned, ends, Part.of_cover_trees covered,
    stands_of_covered scanned covered, ?_⟩
  have pieces : Tree.CoversPieces .expr _ body := covered.pieces fun _ => rfl
  have ordered := pieces.ordered (tokens_placed scanned).2.left
  rw [List.map_map, List.filterMap_map] at ordered
  simpa [Function.comp_def, piece, Piece.tree?] using ordered

/-- A definition with an empty list and a signed number, and a newline behind. -/
theorem parsed_definition_stands_in_source :
    ∃ forest, parse "g: int() = -1\n" = .ok forest ∧ ∃ body stop,
      tokens "g: int() = -1\n" = .ok (body ++ [stop]) ∧ stop.kind = .eof ∧
      (∃ owned : List (List Token), body = owned.flatten ∧
        List.Forall₂ (fun tree own => tree.Covers own []) forest owned) ∧
      (∀ tree ∈ forest, tree.Everywhere (Tree.StandsIn "g: int() = -1\n".toList body)) ∧
      forest.Pairwise fun earlier later => earlier.span.stop ≤ later.span.start :=
  ⟨_, rfl, parsed_trees_stand_in_source rfl⟩

end Reckon
