import Mathlib.Data.List.Forall2
import Mathlib.Data.Option.Basic
import Reckon.Proofs.Grammar.Yield

/-!
Two readings side by side. If their tokens correspond one by one and the signs before numbers are
joined to them alike, what has been read corresponds after every token, and both readings go on or
neither does. The correspondence is left open: it says which tokens, texts, trees and locations are
taken for the same, and has to be kept by whatever builds trees.
-/

namespace Reckon

/-- Pieces of which the trees or the texts correspond. -/
inductive Piece.Like (texts : String → String → Prop) (trees : Tree → Tree → Prop) :
    Piece Tree → Piece Tree → Prop where
  | tree {tree other : Tree} (alike : trees tree other) :
      Like texts trees (.tree tree) (.tree other)
  | token {text other : String} (alike : texts text other) :
      Like texts trees (.token text) (.token other)

/-- What is taken for the same in two readings. A tree corresponds to the other if its pieces and
its location do. -/
structure Correspondence where
  tokens : Token → Token → Prop
  texts : String → String → Prop
  trees : Tree → Tree → Prop
  locations : Location → Location → Prop
  kind : ∀ {token other}, tokens token other → token.kind = other.kind
  text : ∀ {token other}, tokens token other → texts token.text other.text
  location : ∀ {token other}, tokens token other → locations token.location other.location
  placed : ∀ {tree other}, trees tree other → locations tree.location other.location
  symbol : ∀ text, texts text text
  joined : ∀ {sign other digits more}, texts sign other → texts digits more →
    texts (sign ++ digits) (other ++ more)
  point : ∀ {token other}, tokens token other →
    locations ⟨.point token.span.start, token.location.position⟩
      ⟨.point other.span.start, other.location.position⟩
  through : ∀ {first last other more}, locations first other → locations last more →
    locations (first.through last) (other.through more)
  node : ∀ production {pieces others location other},
    List.Forall₂ (Piece.Like texts trees) pieces others → locations location other →
    trees (.node production pieces location) (.node production others other)

variable {like : Correspondence}

namespace Tree

variable {tree other : Tree}

theorem of_token_like {token other : Token} (alike : like.tokens token other)
    (production : Production) :
    like.trees (.ofToken production token) (.ofToken production other) :=
  like.node _ (.cons (.token (like.text alike)) .nil) (like.location alike)

theorem atom_of_like (alike : like.trees tree other) : like.trees (.atomOf tree) (.atomOf other) :=
  like.node _ (.cons (.tree alike) .nil) (like.placed alike)

theorem group_like {opening closing opening' closing' : Token}
    (opened : like.tokens opening opening') (alike : like.trees tree other)
    (closed : like.tokens closing closing') :
    like.trees (.group opening tree closing) (.group opening' other closing') :=
  like.node _
    (.cons (.token (like.text opened))
      (.cons (.tree alike) (.cons (.token (like.text closed)) .nil)))
    (like.through (like.location opened) (like.location closed))

theorem factor_of_like (alike : like.trees tree other) :
    like.trees (.factorOf tree) (.factorOf other) :=
  like.node _ (.cons (.tree alike) .nil) (like.placed alike)

theorem power_like {base exponent base' exponent' : Tree} (based : like.trees base base')
    (raised : like.trees exponent exponent') :
    like.trees (.power base exponent) (.power base' exponent') :=
  like.node _
    (.cons (.tree based) (.cons (.token (like.symbol "^")) (.cons (.tree raised) .nil)))
    (like.through (like.placed based) (like.placed raised))

end Tree

namespace Reading

theorem literal_like {sign number sign' number' : Token} (signs : like.tokens sign sign')
    (numbers : like.tokens number number') (production : Production) :
    like.trees (literal production sign number) (literal production sign' number') :=
  Tree.atom_of_like (like.node _
    (.cons (.token (like.joined (like.text signs) (like.text numbers))) .nil)
    (like.through (like.location signs) (like.location numbers)))

end Reading

theorem finish_factor_like {bases others : List Tree} {atom atom' : Tree}
    (based : List.Forall₂ like.trees bases others) (alike : like.trees atom atom') :
    like.trees (finishFactor bases atom) (finishFactor others atom') := by
  refine List.rel_foldl ?_ (Tree.factor_of_like alike) based
  intro exponent exponent' raised base base' based
  exact Tree.power_like based raised

/-- Operands that correspond, each with the operator after it. -/
def OperandLike (like : Correspondence) (operand other : Tree × Token) : Prop :=
  like.trees operand.1 other.1 ∧ like.tokens operand.2 other.2

theorem finish_chain_like (production : Production) {earlier others : List (Tree × Token)}
    {last last' : Tree} (operands : List.Forall₂ (OperandLike like) earlier others)
    (alike : like.trees last last') :
    like.trees (finishChain production earlier last) (finishChain production others last') :=
  like.node _
    (List.rel_foldl (fun _ _ pieces _ _ operand =>
      .cons (.tree operand.1) (.cons (.token (like.text operand.2)) pieces))
      (.cons (.tree alike) .nil) operands)
    (List.rel_foldl (fun _ _ location _ _ operand =>
      like.through (like.placed operand.1) location) (like.placed alike) operands)

namespace Chain

structure Like (like : Correspondence) (chain other : Chain) : Prop where
  terms : List.Forall₂ (OperandLike like) chain.terms other.terms
  factors : List.Forall₂ (OperandLike like) chain.factors other.factors
  bases : List.Forall₂ like.trees chain.bases other.bases

variable {chain other : Chain} {atom atom' : Tree} {operator operator' : Token}

theorem empty_like : Like like empty empty := ⟨.nil, .nil, .nil⟩

theorem Like.finish_term (chains : chain.Like like other) (alike : like.trees atom atom') :
    like.trees (chain.finishTerm atom) (other.finishTerm atom') :=
  finish_chain_like _ chains.factors (finish_factor_like chains.bases alike)

theorem Like.finish (chains : chain.Like like other) (alike : like.trees atom atom') :
    like.trees (chain.finish atom) (other.finish atom') :=
  finish_chain_like _ chains.terms (chains.finish_term alike)

theorem Like.raise (chains : chain.Like like other) (alike : like.trees atom atom') :
    (chain.raise atom).Like like (other.raise atom') :=
  ⟨chains.terms, chains.factors, .cons alike chains.bases⟩

theorem Like.multiply (chains : chain.Like like other) (alike : like.trees atom atom')
    (operators : like.tokens operator operator') :
    (chain.multiply atom operator).Like like (other.multiply atom' operator') :=
  ⟨chains.terms, .cons ⟨finish_factor_like chains.bases alike, operators⟩ chains.factors, .nil⟩

theorem Like.add (chains : chain.Like like other) (alike : like.trees atom atom')
    (operators : like.tokens operator operator') :
    (chain.add atom operator).Like like (other.add atom' operator') :=
  ⟨.cons ⟨chains.finish_term alike, operators⟩ chains.terms, .nil, .nil⟩

end Chain

namespace ListItem

structure Like (like : Correspondence) (item other : ListItem) : Prop where
  name : like.tokens item.name other.name
  value : like.trees item.value other.value
  comma? : Option.Rel like.tokens item.comma? other.comma?

variable {item other : ListItem}

theorem Like.pieces (items : item.Like like other) (mark : String) :
    List.Forall₂ (Piece.Like like.texts like.trees) (item.pieces mark) (other.pieces mark) := by
  obtain ⟨name, value, comma?⟩ := item
  obtain ⟨name', value', comma'?⟩ := other
  obtain ⟨names, values, commas⟩ := items
  refine .cons (.tree (Tree.of_token_like names _)) (.cons (.token (like.symbol mark))
    (.cons (.tree values) ?_))
  cases commas with
  | none => exact .nil
  | some alike => exact .cons (.token (like.text alike)) .nil

theorem Like.location (items : item.Like like other) :
    like.locations item.location other.location := by
  obtain ⟨name, value, comma?⟩ := item
  obtain ⟨name', value', comma'?⟩ := other
  obtain ⟨names, values, commas⟩ := items
  refine like.through (like.location names) ?_
  cases commas with
  | none => exact like.placed values
  | some alike => exact like.location alike

end ListItem

theorem finish_list_like (production : Production) (mark : String) {items others : List ListItem}
    {closing closing' : Token} (all : List.Forall₂ (ListItem.Like like) items others)
    (closed : like.tokens closing closing') :
    like.trees (finishList production mark items closing)
      (finishList production mark others closing') := by
  refine like.node _ ?_ ?_
  · exact List.rel_foldl (fun _ _ pieces _ _ item =>
      List.rel_append (item.pieces mark) pieces) .nil all
  · cases all with
    | nil => exact like.point closed
    | cons last earlier =>
        exact List.rel_foldl (fun _ _ location _ _ item => like.through item.location location)
          last.location earlier

namespace OpenCall

structure Like (like : Correspondence) (call other : OpenCall) : Prop where
  callee : like.tokens call.callee other.callee
  opening : like.tokens call.opening other.opening
  arguments : List.Forall₂ (ListItem.Like like) call.arguments other.arguments

theorem Like.finish {call other : OpenCall} (calls : call.Like like other)
    {closing closing' : Token} (closed : like.tokens closing closing') :
    like.trees (call.finish closing) (other.finish closing') :=
  Tree.atom_of_like (like.node _
    (.cons (.tree (Tree.of_token_like calls.callee _)) (.cons (.token (like.text calls.opening))
      (.cons (.tree (finish_list_like _ _ calls.arguments closed))
        (.cons (.token (like.text closed)) .nil))))
    (like.through (like.location calls.callee) (like.location closed)))

end OpenCall

namespace OpenSignature

structure Like (like : Correspondence) (signature other : OpenSignature) : Prop where
  name : like.tokens signature.name other.name
  kind : like.tokens signature.kind other.kind
  opening : like.tokens signature.opening other.opening
  parameters : List.Forall₂ (ListItem.Like like) signature.parameters other.parameters

theorem Like.finish {signature other : OpenSignature} (signatures : signature.Like like other)
    {closing closing' : Token} (closed : like.tokens closing closing') :
    like.trees (signature.finish closing) (other.finish closing') :=
  like.node _
    (.cons (.tree (Tree.of_token_like signatures.kind _))
      (.cons (.token (like.text signatures.opening))
        (.cons (.tree (finish_list_like _ _ signatures.parameters closed))
          (.cons (.token (like.text closed)) .nil))))
    (like.through (like.location signatures.kind) (like.location closed))

end OpenSignature

namespace Head

inductive Like (like : Correspondence) : Head → Head → Prop where
  | bare : Like like .bare .bare
  | echo {keyword other : Token} (keywords : like.tokens keyword other) :
      Like like (.echo keyword) (.echo other)
  | assign {name other : Token} (names : like.tokens name other) :
      Like like (.assign name) (.assign other)
  | define {name other : Token} (names : like.tokens name other) :
      Like like (.define name none) (.define other none)
  | defineAs {name kind other kind' : Token} (names : like.tokens name other)
      (kinds : like.tokens kind kind') :
      Like like (.define name (some kind)) (.define other (some kind'))
  | callable {name other : Token} {signature signature' : Tree} (names : like.tokens name other)
      (signatures : like.trees signature signature') :
      Like like (.callable name signature) (.callable other signature')

theorem Like.finish {head other : Head} (heads : head.Like like other) {value value' : Tree}
    (values : like.trees value value') : like.trees (head.finish value) (other.finish value') := by
  cases heads with
  | bare => exact values
  | echo keywords =>
      exact like.node _ (.cons (.token (like.text keywords)) (.cons (.tree values) .nil))
        (like.through (like.location keywords) (like.placed values))
  | assign names =>
      exact like.node _ (.cons (.tree (Tree.of_token_like names _))
        (.cons (.token (like.symbol "=")) (.cons (.tree values) .nil)))
        (like.through (like.location names) (like.placed values))
  | define names =>
      exact like.node _ (.cons (.tree (Tree.of_token_like names _))
        (.cons (.token (like.symbol ":")) (.cons (.token (like.symbol "="))
          (.cons (.tree values) .nil))))
        (like.through (like.location names) (like.placed values))
  | defineAs names kinds =>
      exact like.node _ (.cons (.tree (Tree.of_token_like names _))
        (.cons (.token (like.symbol ":")) (.cons (.tree (Tree.of_token_like kinds _))
          (.cons (.token (like.symbol "=")) (.cons (.tree values) .nil)))))
        (like.through (like.location names) (like.placed values))
  | callable names signatures =>
      exact like.node _ (.cons (.tree (Tree.of_token_like names _))
        (.cons (.token (like.symbol ":")) (.cons (.tree signatures)
          (.cons (.token (like.symbol "=")) (.cons (.tree values) .nil)))))
        (like.through (like.location names) (like.placed values))

end Head

namespace Opening

inductive Like (like : Correspondence) : Opening → Opening → Prop where
  | group {opening other : Token} {around around' : Chain} (opened : like.tokens opening other)
      (chains : around.Like like around') : Like like (.group opening around) (.group other around')
  | argument {call call' : OpenCall} {name other : Token} {around around' : Chain}
      (calls : call.Like like call') (names : like.tokens name other)
      (chains : around.Like like around') :
      Like like (.argument call name around) (.argument call' other around')

end Opening

namespace Inside

structure Like (like : Correspondence) (inside other : Inside) : Prop where
  head : inside.head.Like like other.head
  openings : List.Forall₂ (Opening.Like like) inside.openings other.openings
  chain : inside.chain.Like like other.chain

theorem start_like {head other : Head} (heads : head.Like like other) :
    (start head).Like like (start other) := ⟨heads, .nil, Chain.empty_like⟩

end Inside

namespace Stage

inductive Like (like : Correspondence) : Stage → Stage → Prop where
  | start : Like like .start .start
  | named {name name' : Token} (names : like.tokens name name') :
      Like like (.named name) (.named name')
  | definition {name name' : Token} (names : like.tokens name name') :
      Like like (.definition name) (.definition name')
  | kindRead {name name' kind kind' : Token} (names : like.tokens name name')
      (kinds : like.tokens kind kind') : Like like (.kindRead name kind) (.kindRead name' kind')
  | parameterDue {signature signature' : OpenSignature}
      (signatures : signature.Like like signature') :
      Like like (.parameterDue signature) (.parameterDue signature')
  | parameterNamed {signature signature' : OpenSignature} {name name' : Token}
      (signatures : signature.Like like signature') (names : like.tokens name name') :
      Like like (.parameterNamed signature name) (.parameterNamed signature' name')
  | parameterKindDue {signature signature' : OpenSignature} {name name' : Token}
      (signatures : signature.Like like signature') (names : like.tokens name name') :
      Like like (.parameterKindDue signature name) (.parameterKindDue signature' name')
  | parameterRead {signature signature' : OpenSignature} {name name' kind kind' : Token}
      (signatures : signature.Like like signature') (names : like.tokens name name')
      (kinds : like.tokens kind kind') :
      Like like (.parameterRead signature name kind) (.parameterRead signature' name' kind')
  | signatureRead {name name' : Token} {signature signature' : Tree}
      (names : like.tokens name name') (signatures : like.trees signature signature') :
      Like like (.signatureRead name signature) (.signatureRead name' signature')
  | atomDue {inside inside' : Inside} (insides : inside.Like like inside') :
      Like like (.atomDue inside) (.atomDue inside')
  | signRead {inside inside' : Inside} {sign sign' : Token} (insides : inside.Like like inside')
      (signs : like.tokens sign sign') : Like like (.signRead inside sign) (.signRead inside' sign')
  | nameRead {inside inside' : Inside} {name name' : Token} (insides : inside.Like like inside')
      (names : like.tokens name name') : Like like (.nameRead inside name) (.nameRead inside' name')
  | atomRead {inside inside' : Inside} {atom atom' : Tree} (insides : inside.Like like inside')
      (atoms : like.trees atom atom') : Like like (.atomRead inside atom) (.atomRead inside' atom')
  | argumentDue {inside inside' : Inside} {call call' : OpenCall}
      (insides : inside.Like like inside') (calls : call.Like like call') :
      Like like (.argumentDue inside call) (.argumentDue inside' call')
  | argumentNamed {inside inside' : Inside} {call call' : OpenCall} {name name' : Token}
      (insides : inside.Like like inside') (calls : call.Like like call')
      (names : like.tokens name name') :
      Like like (.argumentNamed inside call name) (.argumentNamed inside' call' name')

end Stage

namespace Reading

structure Like (like : Correspondence) (reading other : Reading) : Prop where
  finished : List.Forall₂ like.trees reading.finished other.finished
  stage : reading.stage.Like like other.stage

/-- The reading stops for an argument that is given twice. -/
def Repeats (outcome : Except ParseError Reading) : Prop :=
  ∃ name location, outcome = .error (.repeatedArgument name location)

/-- Two readings that correspond, or errors that blame tokens that correspond. Which arguments are
repeated is the same only if the texts are. -/
inductive SameOutcome (like : Correspondence) :
    Except ParseError Reading → Except ParseError Reading → Prop where
  | ok {reading other : Reading} (readings : reading.Like like other) :
      SameOutcome like (.ok reading) (.ok other)
  | unexpected (expected : Expectation) {token other : Token} (blamed : like.tokens token other) :
      SameOutcome like (.error (.unexpected expected token.kind token.location))
        (.error (.unexpected expected other.kind other.location))
  | unclosedParen {opening opening' token other : Token} (opened : like.tokens opening opening')
      (blamed : like.tokens token other) :
      SameOutcome like (.error (.unclosedParen opening.span token.kind token.location))
        (.error (.unclosedParen opening'.span other.kind other.location))
  | detachedSign {sign other : Token} (blamed : like.tokens sign other) :
      SameOutcome like (.error (.detachedSign sign.kind sign.location))
        (.error (.detachedSign other.kind other.location))
  | repeatedArgument {name other : Token} (blamed : like.tokens name other)
      (texts : name.text = other.text) :
      SameOutcome like (.error (.repeatedArgument name.text name.location))
        (.error (.repeatedArgument other.text other.location))
  | repeats {outcome other : Except ParseError Reading}
      (renamed : ¬ ∀ token other, like.tokens token other → token.text = other.text)
      (either : Repeats outcome ∨ Repeats other) : SameOutcome like outcome other

section

variable {reading other : Reading} {inside inside' : Inside} {atom atom' : Tree}
  {token token' : Token}

theorem next_like (readings : List.Forall₂ like.trees reading.finished other.finished)
    {stage stage' : Stage} (stages : stage.Like like stage') :
    SameOutcome like (reading.next stage) (other.next stage') :=
  .ok ⟨readings, stages⟩

theorem line_end_like {finished finished' : List Tree}
    (all : List.Forall₂ like.trees finished finished') (blamed : like.tokens token token') :
    SameOutcome like (lineEnd finished token) (lineEnd finished' token') := by
  unfold lineEnd
  rw [← like.kind blamed]
  split
  · exact .ok ⟨.cons (Tree.of_token_like blamed _) all, .start⟩
  · exact .ok ⟨all, .start⟩
  · exact .unexpected _ blamed

/-- The first name that is repeated is the same if all names are. -/
theorem first_repeated_like
    (texts : ∀ token other, like.tokens token other → token.text = other.text)
    {names others : List Token} (all : List.Forall₂ like.tokens names others)
    (seen : List String) :
    Option.Rel (fun name other => like.tokens name other ∧ name.text = other.text)
      (firstRepeated seen names) (firstRepeated seen others) := by
  induction all generalizing seen with
  | nil => exact .none
  | @cons name other _ _ alike _ induction =>
      rw [firstRepeated, firstRepeated, texts name other alike]
      split
      · exact .some ⟨alike, texts name other alike⟩
      · exact induction _

theorem repeated_like (texts : ∀ token other, like.tokens token other → token.text = other.text)
    {call call' : OpenCall} (calls : call.Like like call') :
    Option.Rel (fun name other => like.tokens name other ∧ name.text = other.text)
      call.repeated? call'.repeated? := by
  refine first_repeated_like texts ?_ []
  rw [List.forall₂_map_left_iff, List.forall₂_map_right_iff]
  exact (List.rel_reverse calls.arguments).imp fun _ _ items => items.name

theorem close_call_like (readings : List.Forall₂ like.trees reading.finished other.finished)
    (insides : inside.Like like inside') {call call' : OpenCall} (calls : call.Like like call')
    (blamed : like.tokens token token') :
    SameOutcome like (reading.closeCall inside call token)
      (other.closeCall inside' call' token') := by
  have closes : SameOutcome like
      (if token.kind = .rightParen then reading.next (.atomRead inside (call.finish token))
        else .error (.unclosedParen call.opening.span token.kind token.location))
      (if token'.kind = .rightParen then other.next (.atomRead inside' (call'.finish token'))
        else .error (.unclosedParen call'.opening.span token'.kind token'.location)) := by
    rw [like.kind blamed]
    split
    · exact next_like readings (.atomRead insides (calls.finish blamed))
    · exact like.kind blamed ▸ .unclosedParen calls.opening blamed
  by_cases texts : ∀ token other, like.tokens token other → token.text = other.text
  · have repeated := repeated_like texts calls
    unfold closeCall
    generalize call.repeated? = first at repeated
    generalize call'.repeated? = second at repeated
    cases repeated with
    | none => exact closes
    | some alike => exact .repeatedArgument alike.1 alike.2
  · cases first : call.repeated? with
    | some name => exact .repeats texts (.inl ⟨_, _, by rw [closeCall, first]⟩)
    | none =>
        cases second : call'.repeated? with
        | some name => exact .repeats texts (.inr ⟨_, _, by rw [closeCall, second]⟩)
        | none =>
            rw [closeCall, closeCall, first, second]
            exact closes

theorem close_expr_like (readings : List.Forall₂ like.trees reading.finished other.finished)
    {head head' : Head} (heads : head.Like like head') {value value' : Tree}
    (values : like.trees value value') (blamed : like.tokens token token')
    {openings openings' : List Opening}
    (opened : List.Forall₂ (Opening.Like like) openings openings') :
    SameOutcome like (reading.closeExpr head value token openings)
      (other.closeExpr head' value' token' openings') := by
  cases opened with
  | nil => exact line_end_like (.cons (heads.finish values) readings) blamed
  | cons first rest =>
      cases first with
      | group opening chains =>
          simp only [closeExpr]
          rw [like.kind blamed]
          split
          · exact next_like readings (.atomRead ⟨heads, rest, chains⟩
              (Tree.group_like opening values blamed))
          · exact like.kind blamed ▸ .unclosedParen opening blamed
      | argument calls names chains =>
          simp only [closeExpr]
          rw [like.kind blamed]
          split
          · exact next_like readings (.argumentDue ⟨heads, rest, chains⟩
              ⟨calls.callee, calls.opening, .cons ⟨names, values, .some blamed⟩ calls.arguments⟩)
          · exact close_call_like readings ⟨heads, rest, chains⟩
              ⟨calls.callee, calls.opening, .cons ⟨names, values, .none⟩ calls.arguments⟩ blamed

theorem after_atom_like (readings : List.Forall₂ like.trees reading.finished other.finished)
    (insides : inside.Like like inside') (atoms : like.trees atom atom')
    (blamed : like.tokens token token') :
    SameOutcome like (reading.afterAtom inside atom token)
      (other.afterAtom inside' atom' token') := by
  have chains := insides.chain
  unfold afterAtom
  rw [← like.kind blamed]
  split
  · exact next_like readings (.atomDue ⟨insides.head, insides.openings, chains.raise atoms⟩)
  · exact next_like readings
      (.atomDue ⟨insides.head, insides.openings, chains.multiply atoms blamed⟩)
  · exact next_like readings
      (.atomDue ⟨insides.head, insides.openings, chains.multiply atoms blamed⟩)
  · exact next_like readings (.atomDue ⟨insides.head, insides.openings, chains.add atoms blamed⟩)
  · exact next_like readings (.atomDue ⟨insides.head, insides.openings, chains.add atoms blamed⟩)
  · exact close_expr_like readings insides.head (chains.finish atoms) blamed insides.openings

theorem after_sign_detached (reading : Reading) (inside : Inside) (sign : Token)
    (other : token.kind.isNumeric = false) :
    reading.afterSign inside sign token = .error (.detachedSign sign.kind sign.location) := by
  unfold afterSign
  split_ifs
  · split
    · next kind => simp [kind, TokenKind.isNumeric] at other
    · next kind => simp [kind, TokenKind.isNumeric] at other
    · rfl
  · rfl

theorem after_sign_like (readings : List.Forall₂ like.trees reading.finished other.finished)
    (insides : inside.Like like inside') {sign sign' : Token} (signs : like.tokens sign sign')
    (blamed : like.tokens token token')
    (joined : token.kind.isNumeric = true → sign.isAdjacent token = sign'.isAdjacent token') :
    SameOutcome like (reading.afterSign inside sign token)
      (other.afterSign inside' sign' token') := by
  by_cases numeric : token.kind.isNumeric = true
  · unfold afterSign
    rw [← like.kind blamed, joined numeric]
    split
    · split
      · exact next_like readings (.atomRead insides (literal_like signs blamed _))
      · exact next_like readings (.atomRead insides (literal_like signs blamed _))
      · exact .detachedSign signs
    · exact .detachedSign signs
  · rw [Bool.not_eq_true] at numeric
    rw [after_sign_detached _ _ _ numeric,
      after_sign_detached _ _ _ (like.kind blamed ▸ numeric)]
    exact .detachedSign signs

theorem begin_atom_like (readings : List.Forall₂ like.trees reading.finished other.finished)
    (insides : inside.Like like inside') (blamed : like.tokens token token') :
    SameOutcome like (reading.beginAtom inside token) (other.beginAtom inside' token') := by
  unfold beginAtom
  rw [← like.kind blamed]
  split
  · exact next_like readings (.atomDue ⟨insides.head, .cons (.group blamed insides.chain)
      insides.openings, Chain.empty_like⟩)
  · exact next_like readings (.nameRead insides blamed)
  · exact next_like readings
      (.atomRead insides (Tree.atom_of_like (Tree.of_token_like blamed _)))
  · exact next_like readings
      (.atomRead insides (Tree.atom_of_like (Tree.of_token_like blamed _)))
  · exact next_like readings (.signRead insides blamed)
  · exact next_like readings (.signRead insides blamed)
  · exact .unexpected _ blamed

theorem after_name_like (readings : List.Forall₂ like.trees reading.finished other.finished)
    (insides : inside.Like like inside') {name name' : Token} (names : like.tokens name name')
    (blamed : like.tokens token token') :
    SameOutcome like (reading.afterName inside name token)
      (other.afterName inside' name' token') := by
  unfold afterName
  rw [← like.kind blamed]
  split
  · exact next_like readings (.argumentDue insides ⟨names, blamed, .nil⟩)
  · exact after_atom_like readings insides (Tree.atom_of_like (Tree.of_token_like names _)) blamed

theorem begin_statement_like (readings : List.Forall₂ like.trees reading.finished other.finished)
    (blamed : like.tokens token token') :
    SameOutcome like (reading.beginStatement token) (other.beginStatement token') := by
  unfold beginStatement
  rw [← like.kind blamed]
  split
  · exact line_end_like readings blamed
  · exact line_end_like readings blamed
  · exact next_like readings (.atomDue (Inside.start_like (.echo blamed)))
  · exact next_like readings (.named blamed)
  · exact begin_atom_like readings (Inside.start_like .bare) blamed

theorem close_signature_like (readings : List.Forall₂ like.trees reading.finished other.finished)
    {signature signature' : OpenSignature} (signatures : signature.Like like signature')
    (blamed : like.tokens token token') :
    SameOutcome like (reading.closeSignature signature token)
      (other.closeSignature signature' token') := by
  unfold closeSignature
  rw [like.kind blamed]
  split
  · exact next_like readings (.signatureRead signatures.name (signatures.finish blamed))
  · exact like.kind blamed ▸ .unclosedParen signatures.opening blamed

/-- One token each: the readings go on side by side, or stop for the same reason. -/
theorem step_like (readings : reading.Like like other) (blamed : like.tokens token token')
    (joined : ∀ sign ∈ reading.stage.heldSign, ∀ sign' ∈ other.stage.heldSign,
      token.kind.isNumeric = true → sign.isAdjacent token = sign'.isAdjacent token') :
    SameOutcome like (reading.step token) (other.step token') := by
  obtain ⟨finished, stage⟩ := reading
  obtain ⟨finished', stage'⟩ := other
  obtain ⟨all, stages⟩ := readings
  have kind := like.kind blamed
  unfold step
  cases stages with
  | start => exact begin_statement_like all blamed
  | named names =>
      simp only [← kind]
      split
      · exact next_like all (.definition names)
      · exact next_like all (.atomDue (Inside.start_like (.assign names)))
      · exact after_name_like all (Inside.start_like .bare) names blamed
  | definition names =>
      simp only [← kind]
      split
      · exact next_like all (.atomDue (Inside.start_like (.define names)))
      · exact next_like all (.kindRead names blamed)
      · exact .unexpected _ blamed
  | kindRead names kinds =>
      simp only [← kind]
      split
      · exact next_like all (.atomDue (Inside.start_like (.defineAs names kinds)))
      · exact next_like all (.parameterDue ⟨names, kinds, blamed, .nil⟩)
      · exact .unexpected _ blamed
  | parameterDue signatures =>
      simp only [← kind]
      split
      · exact close_signature_like all signatures blamed
      · exact next_like all (.parameterNamed signatures blamed)
      · exact .unexpected _ blamed
  | parameterNamed signatures names =>
      simp only [← kind]
      split
      · exact next_like all (.parameterKindDue signatures names)
      · exact .unexpected _ blamed
  | parameterKindDue signatures names =>
      simp only [← kind]
      split
      · exact next_like all (.parameterRead signatures names blamed)
      · exact .unexpected _ blamed
  | parameterRead signatures names kinds =>
      have value := Tree.of_token_like kinds .identifier
      simp only [← kind]
      split
      · exact next_like all (.parameterDue ⟨signatures.name, signatures.kind, signatures.opening,
          .cons ⟨names, value, .some blamed⟩ signatures.parameters⟩)
      · exact close_signature_like all ⟨signatures.name, signatures.kind, signatures.opening,
          .cons ⟨names, value, .none⟩ signatures.parameters⟩ blamed
  | signatureRead names signatures =>
      simp only [← kind]
      split
      · exact next_like all (.atomDue (Inside.start_like (.callable names signatures)))
      · exact .unexpected _ blamed
  | atomDue insides => exact begin_atom_like all insides blamed
  | signRead insides signs =>
      exact after_sign_like all insides signs blamed
        (joined _ (List.mem_singleton.mpr rfl) _ (List.mem_singleton.mpr rfl))
  | nameRead insides names => exact after_name_like all insides names blamed
  | atomRead insides atoms => exact after_atom_like all insides atoms blamed
  | argumentDue insides calls =>
      simp only [← kind]
      split
      · exact close_call_like all insides calls blamed
      · exact next_like all (.argumentNamed insides calls blamed)
      · exact .unexpected _ blamed
  | argumentNamed insides calls names =>
      simp only [← kind]
      split
      · exact next_like all (.atomDue ⟨insides.head, .cons (.argument calls names insides.chain)
          insides.openings, Chain.empty_like⟩)
      · exact .unexpected _ blamed

end

/-- A sign is held right after it has been taken and at no other time. -/
theorem held_of_takes {reading next : Reading} {token sign : Token}
    (takes : Takes reading token next) (held : sign ∈ next.stage.heldSign) :
    sign = token ∧ token.kind.isAdditive = true := by
  cases takes with
  | sign begins kind =>
      refine ⟨List.mem_singleton.mp held, ?_⟩
      rcases kind with kind | kind <;> rw [kind] <;> rfl
  | _ => cases held

end Reading

/-- For every token that another follows, whether it is a sign and that a number right behind it. -/
def joinedSigns : List Token → List Bool
  | sign :: next :: rest =>
      (sign.kind.isAdditive && next.kind.isNumeric && sign.isAdjacent next) ::
        joinedSigns (next :: rest)
  | _ => []

section

variable {token token' next next' : Token} {tokens others : List Token}

theorem joined_signs_tail (lengths : tokens.length = others.length)
    (joined : joinedSigns (token :: tokens) = joinedSigns (token' :: others)) :
    joinedSigns tokens = joinedSigns others := by
  cases tokens with
  | nil => rw [List.eq_nil_of_length_eq_zero lengths.symm]
  | cons next tokens =>
      cases others with
      | nil => cases lengths
      | cons next' others => exact (List.cons.inj joined).2

theorem joined_signs_head (kind : token.kind = token'.kind) (nextKind : next.kind = next'.kind)
    (sign : token.kind.isAdditive = true) (number : next.kind.isNumeric = true)
    (joined : joinedSigns (token :: next :: tokens) = joinedSigns (token' :: next' :: others)) :
    token.isAdjacent next = token'.isAdjacent next' := by
  have head := (List.cons.inj joined).1
  rw [← kind, ← nextKind, sign, number] at head
  simpa using head

end

namespace Reading

theorem held_signs_like {stage stage' : Stage} (stages : stage.Like like stage') :
    (stage.heldSign = [] ∧ stage'.heldSign = []) ∨
      ∃ sign sign', stage.heldSign = [sign] ∧ stage'.heldSign = [sign'] ∧
        like.tokens sign sign' := by
  cases stages with
  | signRead _ signs => exact .inr ⟨_, _, rfl, rfl, signs⟩
  | _ => exact .inl ⟨rfl, rfl⟩

theorem Repeats.bind {outcome : Except ParseError Reading} (repeats : Repeats outcome)
    (tokens : List Token) : Repeats (outcome >>= (·.run tokens)) := by
  obtain ⟨name, location, rfl⟩ := repeats
  exact ⟨name, location, rfl⟩

/-- Token by token the readings go on side by side, or stop for the same reason. -/
theorem run_like {reading other : Reading} {tokens others : List Token}
    (readings : reading.Like like other) (all : List.Forall₂ like.tokens tokens others)
    (signs : ∀ sign ∈ reading.stage.heldSign, sign.kind.isAdditive = true)
    (joined : joinedSigns (reading.stage.heldSign ++ tokens) =
      joinedSigns (other.stage.heldSign ++ others)) :
    SameOutcome like (reading.run tokens) (other.run others) := by
  induction all generalizing reading other with
  | nil => exact .ok readings
  | @cons token token' tokens others blamed all induction =>
      have lengths := all.length_eq
      have here : (∀ sign ∈ reading.stage.heldSign, ∀ sign' ∈ other.stage.heldSign,
          token.kind.isNumeric = true → sign.isAdjacent token = sign'.isAdjacent token') ∧
          joinedSigns (token :: tokens) = joinedSigns (token' :: others) := by
        rcases held_signs_like readings.stage with ⟨none, none'⟩ | ⟨sign, sign', one, one', alike⟩
        · rw [none, none'] at joined ⊢
          exact ⟨by simp, joined⟩
        · rw [one, one'] at joined ⊢
          refine ⟨?_, joined_signs_tail (congrArg (· + 1) lengths) joined⟩
          simp only [List.mem_singleton, forall_eq]
          exact fun numeric => joined_signs_head (like.kind alike) (like.kind blamed)
            (signs sign (by simp [one])) numeric joined
      have outcome := step_like readings blamed here.1
      rw [run_cons, run_cons]
      generalize first : reading.step token = left at outcome ⊢
      generalize second : other.step token' = right at outcome ⊢
      cases outcome with
      | @ok next next' nexts =>
          have held : ∀ sign ∈ next.stage.heldSign, sign = token ∧ token.kind.isAdditive = true :=
            fun _ => held_of_takes (takes_of_step first)
          have held' : ∀ sign ∈ next'.stage.heldSign,
              sign = token' ∧ token'.kind.isAdditive = true :=
            fun _ => held_of_takes (takes_of_step second)
          refine induction nexts (fun sign member => ?_) ?_
          · rw [(held sign member).1]
            exact (held sign member).2
          · rcases held_signs_like nexts.stage with ⟨none, none'⟩ | ⟨sign, sign', one, one', _⟩
            · rw [none, none']
              exact joined_signs_tail lengths here.2
            · rw [one, one', (held sign (by simp [one])).1, (held' sign' (by simp [one'])).1]
              exact here.2
      | unexpected expected blamed => exact .unexpected expected blamed
      | unclosedParen opened blamed => exact .unclosedParen opened blamed
      | detachedSign blamed => exact .detachedSign blamed
      | repeatedArgument blamed texts => exact .repeatedArgument blamed texts
      | repeats renamed either =>
          exact .repeats renamed (either.imp (·.bind tokens) (·.bind others))

end Reading

end Reckon
