import Reckon.Proofs.Grammar.Yield

/-!
Only trees of the grammar are read. Unfinished constructs hold trees of the productions they need
and signs of the right texts, each step keeps that, and so every construct that is finished has the
pieces the table gives its production.
-/

namespace Reckon

namespace Tree

/-- All nodes follow the table, and no argument list gives a name twice. -/
structure WellFormed (tree : Tree) : Prop where
  shaped : tree.Everywhere FollowsTable
  distinct : tree.Everywhere NamesOnce

/-- A well-formed tree of the production. -/
structure Is (production : Production) (tree : Tree) : Prop where
  produced : tree.production = production
  wellFormed : tree.WellFormed

theorem is_node {production : Production} {pieces : List (Piece Tree)} (location : Location)
    (allowed : Shape.Allows Tree.production production pieces)
    (inside : ∀ tree, .tree tree ∈ pieces → tree.WellFormed)
    (once : production = .arguments → (namesAmong pieces).Nodup) :
    (Tree.node production pieces location).Is production := by
  refine ⟨rfl, everywhere_node.mpr ⟨allowed, fun tree member => (inside tree member).shaped⟩,
    everywhere_node.mpr ⟨once, fun tree member => (inside tree member).distinct⟩⟩

theorem is_name {token : Token} (named : Scan.IsName token.text) :
    (Tree.ofToken .identifier token).Is .identifier :=
  is_node _ (.identifier named) (by simp) (by simp)

theorem is_atom_of {inner : Tree} {production : Production} (is : inner.Is production)
    (simple : production ∈ [.call, .intLiteral, .numLiteral, .identifier]) :
    (Tree.atomOf inner).Is .atom := by
  refine is_node _ (.simple (by rw [is.produced]; exact simple)) ?_ (by simp)
  simp only [List.mem_singleton, Piece.tree.injEq, forall_eq]
  exact is.wellFormed

theorem is_group {opening closing : Token} {inner : Tree} (opened : opening.text = "(")
    (is : inner.Is .expr) (closed : closing.text = ")") :
    (Tree.group opening inner closing).Is .atom := by
  rw [group, opened, closed]
  refine is_node _ (.group is.produced) ?_ (by simp)
  simp only [List.mem_cons, Piece.tree.injEq, reduceCtorEq, List.not_mem_nil, false_or, or_false,
    forall_eq]
  exact is.wellFormed

theorem is_factor_of {base : Tree} (is : base.Is .atom) : (Tree.factorOf base).Is .factor := by
  refine is_node _ (.factor is.produced) ?_ (by simp)
  simp only [List.mem_singleton, Piece.tree.injEq, forall_eq]
  exact is.wellFormed

theorem is_power {base exponent : Tree} (is : base.Is .atom) (raised : exponent.Is .factor) :
    (Tree.power base exponent).Is .factor := by
  refine is_node _ (.power is.produced raised.produced) ?_ (by simp)
  intro tree member
  simp only [List.mem_cons, Piece.tree.injEq, reduceCtorEq, List.not_mem_nil, false_or,
    or_false] at member
  rcases member with rfl | rfl
  · exact is.wellFormed
  · exact raised.wellFormed

end Tree

theorem raise_all_is {bases : List Tree} {exponent : Tree} (based : ∀ base ∈ bases, base.Is .atom)
    (is : exponent.Is .factor) : (raiseAll bases exponent).Is .factor := by
  induction bases generalizing exponent with
  | nil => exact is
  | cons base bases induction =>
      exact induction (fun other member => based other (by simp [member]))
        (Tree.is_power (based base (by simp)) is)

theorem finish_factor_is {bases : List Tree} {atom : Tree} (based : ∀ base ∈ bases, base.Is .atom)
    (is : atom.Is .atom) : (finishFactor bases atom).Is .factor :=
  raise_all_is based (Tree.is_factor_of is)

structure IsChainOf (operand : Production) (signs : List String) (pieces : List (Piece Tree)) :
    Prop where
  chained : Shape.Chained Tree.production operand signs pieces
  inside : ∀ tree, .tree tree ∈ pieces → tree.WellFormed

theorem chain_single {operand : Production} (signs : List String) {tree : Tree}
    (is : tree.Is operand) : IsChainOf operand signs [.tree tree] := by
  refine ⟨.last is.produced, ?_⟩
  simp only [List.mem_singleton, Piece.tree.injEq, forall_eq]
  exact is.wellFormed

theorem chain_cons {operand : Production} {signs : List String} {tree : Tree} {sign : String}
    {pieces : List (Piece Tree)} (is : tree.Is operand) (allowed : sign ∈ signs)
    (chain : IsChainOf operand signs pieces) :
    IsChainOf operand signs (.tree tree :: .token sign :: pieces) := by
  refine ⟨.next is.produced allowed chain.chained, ?_⟩
  intro other member
  simp only [List.mem_cons, Piece.tree.injEq, reduceCtorEq, false_or] at member
  rcases member with rfl | member
  · exact is.wellFormed
  · exact chain.inside other member

theorem chain_pieces_chain {operand : Production} {signs : List String}
    {earlier : List (Tree × Token)}
    (operands : ∀ pair ∈ earlier, pair.1.Is operand ∧ pair.2.text ∈ signs)
    {pieces : List (Piece Tree)} (chain : IsChainOf operand signs pieces) :
    IsChainOf operand signs (chainPieces earlier pieces) := by
  induction earlier generalizing pieces with
  | nil => exact chain
  | cons pair earlier induction =>
      obtain ⟨is, allowed⟩ := operands pair (by simp)
      exact induction (fun other member => operands other (by simp [member]))
        (chain_cons is allowed chain)

namespace Chain

/-- The finished parts are those of an expression. -/
structure IsSound (chain : Chain) : Prop where
  terms : ∀ pair ∈ chain.terms, pair.1.Is .term ∧ pair.2.text ∈ ["+", "-"]
  factors : ∀ pair ∈ chain.factors, pair.1.Is .factor ∧ pair.2.text ∈ ["*", "/"]
  bases : ∀ base ∈ chain.bases, base.Is .atom

variable {chain : Chain} {atom : Tree}

theorem empty_sound : empty.IsSound := by
  constructor <;> simp [empty]

theorem finish_term_is (sound : chain.IsSound) (is : atom.Is .atom) :
    (chain.finishTerm atom).Is .term := by
  have pieces := chain_pieces_chain sound.factors
    (chain_single _ (finish_factor_is sound.bases is))
  exact Tree.is_node _ (.term pieces.chained) pieces.inside (by simp)

theorem finish_is (sound : chain.IsSound) (is : atom.Is .atom) : (chain.finish atom).Is .expr := by
  have pieces := chain_pieces_chain sound.terms (chain_single _ (finish_term_is sound is))
  exact Tree.is_node _ (.expr pieces.chained) pieces.inside (by simp)

theorem raise_sound (sound : chain.IsSound) (is : atom.Is .atom) : (chain.raise atom).IsSound := by
  refine ⟨sound.terms, sound.factors, fun base member => ?_⟩
  rcases List.mem_cons.mp member with rfl | member
  · exact is
  · exact sound.bases base member

theorem multiply_sound {operator : Token} (sound : chain.IsSound) (is : atom.Is .atom)
    (sign : operator.text ∈ ["*", "/"]) : (chain.multiply atom operator).IsSound := by
  refine ⟨sound.terms, fun pair member => ?_, by simp [multiply]⟩
  rcases List.mem_cons.mp member with rfl | member
  · exact ⟨finish_factor_is sound.bases is, sign⟩
  · exact sound.factors pair member

theorem add_sound {operator : Token} (sound : chain.IsSound) (is : atom.Is .atom)
    (sign : operator.text ∈ ["+", "-"]) : (chain.add atom operator).IsSound := by
  refine ⟨fun pair member => ?_, by simp [add], by simp [add]⟩
  rcases List.mem_cons.mp member with rfl | member
  · exact ⟨finish_term_is sound is, sign⟩
  · exact sound.terms pair member

end Chain

/-- Pieces of a list, all of whose trees are well formed, with the names of its groups. -/
structure IsListOf (mark : String) (value : Production) (names : List String)
    (pieces : List (Piece Tree)) : Prop where
  listed : Shape.Listed Tree.production mark value pieces
  inside : ∀ tree, .tree tree ∈ pieces → tree.WellFormed
  named : value = .expr → Tree.namesAmong pieces = names

namespace ListItem

/-- A name, a value of the production and a comma. -/
structure IsSound (value : Production) (item : ListItem) : Prop where
  named : Scan.IsName item.name.text
  valued : item.value.Is value
  followed : ∃ comma, item.comma? = some comma ∧ comma.text = ","

end ListItem

/-- Groups with commas, put before pieces of a list, are a list again. -/
theorem list_pieces_list {mark : String} {value : Production} {items : List ListItem}
    (sound : ∀ item ∈ items, item.IsSound value) {names : List String}
    {pieces : List (Piece Tree)} (list : IsListOf mark value names pieces) :
    IsListOf mark value (items.reverse.map (·.name.text) ++ names)
      (listPieces mark items pieces) := by
  induction items generalizing names pieces with
  | nil => exact list
  | cons item items induction =>
      obtain ⟨name, body, comma?⟩ := item
      obtain ⟨named, valued, comma, rfl, text⟩ := sound _ (List.mem_cons_self ..)
      have longer : IsListOf mark value (name.text :: names)
          (ListItem.pieces mark ⟨name, body, some comma⟩ ++ pieces) := by
        simp only [ListItem.pieces, Option.map_some, Option.toList_some, text, List.cons_append,
          List.nil_append]
        refine ⟨.next rfl valued.produced list.listed, ?_, fun expression => ?_⟩
        · intro tree member
          simp only [List.mem_cons, Piece.tree.injEq, reduceCtorEq, false_or] at member
          rcases member with rfl | rfl | member
          · exact (Tree.is_name named).wellFormed
          · exact valued.wellFormed
          · exact list.inside tree member
        · rw [Tree.ofToken, Tree.names_among_group (valued.produced.trans expression),
            ← list.named expression]
          rfl
      have all := induction (fun other member => sound other (by simp [member])) longer
      simpa [listPieces] using all

/-- A list of groups, each but the last with a comma. -/
theorem finish_list_pieces (production : Production) {value : Production} (mark : String)
    {items : List ListItem} {last? : Option (Token × Tree)} (closing : Token)
    (sound : ∀ item ∈ items, item.IsSound value)
    (ending : ∀ last ∈ last?, Scan.IsName last.1.text ∧ last.2.Is value) :
    let all := (last?.map fun last => ⟨last.1, last.2, none⟩).toList ++ items
    IsListOf mark value (all.reverse.map (·.name.text))
      (finishList production mark all closing).pieces := by
  cases last? with
  | none =>
      have empty : IsListOf mark value [] [] := ⟨.none, by simp, fun _ => rfl⟩
      simpa [listPieces, finishList, Tree.pieces] using list_pieces_list sound empty
  | some last =>
      obtain ⟨name, body⟩ := last
      obtain ⟨named, valued⟩ := ending _ rfl
      have single : IsListOf mark value [name.text]
          [.tree (.ofToken .identifier name), .token mark, .tree body] := by
        refine ⟨.last rfl valued.produced, ?_, fun expression => ?_⟩
        · intro tree member
          simp only [List.mem_cons, Piece.tree.injEq, reduceCtorEq, List.not_mem_nil, false_or,
            or_false] at member
          rcases member with rfl | rfl
          · exact (Tree.is_name named).wellFormed
          · exact valued.wellFormed
        · exact Tree.names_among_group (valued.produced.trans expression)
      simpa [listPieces, finishList, Tree.pieces, ListItem.pieces] using
        list_pieces_list sound single

/-- No name is met twice just in case the names differ from each other and from those seen. -/
theorem first_repeated_eq_none_iff {seen : List String} {names : List Token} :
    firstRepeated seen names = none ↔
      (names.map (·.text)).Nodup ∧ ∀ name ∈ names, name.text ∉ seen := by
  induction names generalizing seen with
  | nil => simp [firstRepeated]
  | cons name names induction =>
      rw [firstRepeated]
      by_cases known : name.text ∈ seen
      · simp [known]
      · simp only [known, if_false, induction, List.mem_cons, not_or, List.map_cons,
          List.nodup_cons, List.mem_map, not_exists, not_and, forall_eq_or_imp, not_false_eq_true,
          true_and]
        constructor
        · rintro ⟨distinct, others⟩
          exact ⟨⟨fun other member same => (others other member).1 same, distinct⟩,
            fun other member => (others other member).2⟩
        · rintro ⟨⟨apart, distinct⟩, others⟩
          exact ⟨distinct, fun other member => ⟨apart other member, others other member⟩⟩

namespace OpenCall

structure IsSound (call : OpenCall) : Prop where
  named : Scan.IsName call.callee.text
  opened : call.opening.text = "("
  arguments : ∀ item ∈ call.arguments, item.IsSound .expr

/-- A call with distinct names is an atom, whether or not a comma follows the last argument. -/
theorem finish_is {call : OpenCall} (sound : call.IsSound) (last? : Option (Token × Tree))
    (ending : ∀ last ∈ last?, Scan.IsName last.1.text ∧ last.2.Is .expr) {closing : Token}
    (closed : closing.text = ")") :
    let whole : OpenCall := { call with
      arguments := (last?.map fun last => ⟨last.1, last.2, none⟩).toList ++ call.arguments }
    whole.repeated? = none → (whole.finish closing).Is .atom := by
  intro whole distinct
  have pieces := finish_list_pieces .arguments "=" closing sound.arguments ending
  have once := (first_repeated_eq_none_iff.mp distinct).1
  rw [List.map_map] at once
  have list : (finishList .arguments "=" whole.arguments closing).Is .arguments := by
    refine Tree.is_node _ (.arguments pieces.listed) pieces.inside fun _ => ?_
    exact (pieces.named rfl).symm ▸ once
  refine Tree.is_atom_of (?_ : Tree.Is .call _) (by simp)
  simp only [whole, sound.opened, closed]
  refine Tree.is_node _ (.call rfl list.produced) ?_ (by simp)
  intro tree member
  simp only [List.mem_cons, Piece.tree.injEq, reduceCtorEq, List.not_mem_nil, false_or,
    or_false] at member
  rcases member with rfl | rfl
  · exact (Tree.is_name sound.named).wellFormed
  · exact list.wellFormed

end OpenCall

namespace OpenSignature

structure IsSound (signature : OpenSignature) : Prop where
  named : Scan.IsName signature.name.text
  declared : Scan.IsName signature.kind.text
  opened : signature.opening.text = "("
  parameters : ∀ item ∈ signature.parameters, item.IsSound .identifier

theorem finish_is {signature : OpenSignature} (sound : signature.IsSound)
    (last? : Option (Token × Tree))
    (ending : ∀ last ∈ last?, Scan.IsName last.1.text ∧ last.2.Is .identifier) {closing : Token}
    (closed : closing.text = ")") :
    (OpenSignature.finish { signature with parameters :=
      (last?.map fun last => ⟨last.1, last.2, none⟩).toList ++ signature.parameters }
        closing).Is .signature := by
  have pieces := finish_list_pieces .parameters ":" closing sound.parameters ending
  have list : (finishList .parameters ":"
      ((last?.map fun last => ⟨last.1, last.2, none⟩).toList ++ signature.parameters)
        closing).Is .parameters :=
    Tree.is_node _ (.parameters pieces.listed) pieces.inside (by simp)
  simp only [finish, sound.opened, closed]
  refine Tree.is_node _ (.signature rfl list.produced) ?_ (by simp)
  intro tree member
  simp only [List.mem_cons, Piece.tree.injEq, reduceCtorEq, List.not_mem_nil, false_or,
    or_false] at member
  rcases member with rfl | rfl
  · exact (Tree.is_name sound.declared).wellFormed
  · exact list.wellFormed

end OpenSignature

namespace Tree

/-- A well-formed tree that may stand between two newlines. -/
structure IsStatement (tree : Tree) : Prop where
  topLevel : tree.production ∈ [.newline, .echo, .varDefine, .varAssign, .callableDefine, .expr]
  wellFormed : tree.WellFormed

theorem Is.statement {production : Production} {tree : Tree} (is : tree.Is production)
    (topLevel : production ∈ [.newline, .echo, .varDefine, .varAssign, .callableDefine, .expr]) :
    tree.IsStatement :=
  ⟨is.produced.symm ▸ topLevel, is.wellFormed⟩

end Tree

namespace Head

inductive IsSound : Head → Prop where
  | bare : IsSound .bare
  | echo {keyword : Token} (text : keyword.text = "echo") : IsSound (.echo keyword)
  | assign {name : Token} (named : Scan.IsName name.text) : IsSound (.assign name)
  | define {name : Token} (named : Scan.IsName name.text) : IsSound (.define name none)
  | defineAs {name kind : Token} (named : Scan.IsName name.text)
      (declared : Scan.IsName kind.text) : IsSound (.define name (some kind))
  | callable {name : Token} {signature : Tree} (named : Scan.IsName name.text)
      (signed : signature.Is .signature) : IsSound (.callable name signature)

theorem finish_is {head : Head} (sound : head.IsSound) {value : Tree} (is : value.Is .expr) :
    (head.finish value).IsStatement := by
  have valued := is.wellFormed
  cases sound with
  | bare => exact is.statement (by simp)
  | echo text =>
      rw [finish, text]
      refine (Tree.is_node _ (.echo is.produced) ?_ (by simp)).statement (by simp)
      simpa using valued
  | assign named =>
      refine (Tree.is_node _ (.assign rfl is.produced) ?_ (by simp)).statement (by simp)
      simpa using ⟨(Tree.is_name named).wellFormed, valued⟩
  | define named =>
      refine (Tree.is_node _ (.define rfl is.produced) ?_ (by simp)).statement (by simp)
      simpa using ⟨(Tree.is_name named).wellFormed, valued⟩
  | defineAs named declared =>
      refine (Tree.is_node _ (.defineAs rfl rfl is.produced) ?_ (by simp)).statement (by simp)
      simpa using ⟨(Tree.is_name named).wellFormed, (Tree.is_name declared).wellFormed, valued⟩
  | callable named signed =>
      refine (Tree.is_node _ (.defineCallable rfl signed.produced is.produced) ?_
        (by simp)).statement (by simp)
      simpa using ⟨(Tree.is_name named).wellFormed, signed.wellFormed, valued⟩

end Head

namespace Opening

inductive IsSound : Opening → Prop where
  | group {opening : Token} {around : Chain} (opened : opening.text = "(")
      (sound : around.IsSound) : IsSound (.group opening around)
  | argument {call : OpenCall} {name : Token} {around : Chain} (called : call.IsSound)
      (named : Scan.IsName name.text) (sound : around.IsSound) :
      IsSound (.argument call name around)

end Opening

namespace Inside

structure IsSound (inside : Inside) : Prop where
  head : inside.head.IsSound
  openings : ∀ opening ∈ inside.openings, opening.IsSound
  chain : inside.chain.IsSound

theorem start_sound {head : Head} (sound : head.IsSound) : (start head).IsSound :=
  ⟨sound, by simp [start], Chain.empty_sound⟩

theorem enter_sound {inside : Inside} {opening : Chain → Opening} (sound : inside.IsSound)
    (opened : (opening inside.chain).IsSound) : (inside.enter opening).IsSound := by
  refine ⟨sound.head, fun other member => ?_, Chain.empty_sound⟩
  rcases List.mem_cons.mp member with rfl | member
  · exact opened
  · exact sound.openings other member

end Inside

namespace Stage

/-- What has been read of the statement fits what the grammar asks for. -/
def IsSound : Stage → Prop
  | .start => True
  | .named name => Scan.IsName name.text
  | .definition name => Scan.IsName name.text
  | .kindRead name kind => Scan.IsName name.text ∧ Scan.IsName kind.text
  | .parameterDue signature => signature.IsSound
  | .parameterNamed signature name => signature.IsSound ∧ Scan.IsName name.text
  | .parameterKindDue signature name => signature.IsSound ∧ Scan.IsName name.text
  | .parameterRead signature name kind =>
      signature.IsSound ∧ Scan.IsName name.text ∧ Scan.IsName kind.text
  | .signatureRead name signature => Scan.IsName name.text ∧ signature.Is .signature
  | .atomDue inside => inside.IsSound
  | .signRead inside sign => inside.IsSound ∧ Scan.IsSign sign.text.toList
  | .nameRead inside name => inside.IsSound ∧ Scan.IsName name.text
  | .atomRead inside atom => inside.IsSound ∧ atom.Is .atom
  | .argumentDue inside call => inside.IsSound ∧ call.IsSound
  | .argumentNamed inside call name =>
      inside.IsSound ∧ call.IsSound ∧ Scan.IsName name.text

end Stage

namespace Reading

variable {finished : List Tree} {stage : Stage} {inside : Inside}

theorem atom_begins_sound (begins : AtomBegins stage inside) (sound : stage.IsSound) :
    inside.IsSound := by
  cases begins with
  | due => exact sound
  | bare => exact Inside.start_sound .bare

theorem name_read_sound {name : Token} (read : NameRead stage inside name)
    (sound : stage.IsSound) : inside.IsSound ∧ Scan.IsName name.text := by
  cases read with
  | inside => exact sound
  | bare => exact ⟨Inside.start_sound .bare, sound⟩

theorem atom_read_sound {atom : Tree} (read : AtomRead stage inside atom)
    (sound : stage.IsSound) : inside.IsSound ∧ atom.Is .atom := by
  cases read with
  | whole => exact sound
  | name read =>
      obtain ⟨around, named⟩ := name_read_sound read sound
      exact ⟨around, Tree.is_atom_of (Tree.is_name named) (by simp)⟩

/-- A literal with the text of a sign, or of none, before its number. -/
theorem number_is {production : Production} {number : Token} (sign : String)
    (leaf : NumberLeaf number.kind production) (proper : number.IsProper)
    (signed : Scan.IsSign sign.toList) (location : Location) :
    (Tree.atomOf (.leaf production (sign ++ number.text) location)).Is .atom := by
  have described := proper.described
  generalize number.kind = kind at leaf described
  have text : (sign ++ number.text).toList = sign.toList ++ number.text.toList :=
    String.toList_append
  cases leaf with
  | int =>
      refine Tree.is_atom_of (?_ : Tree.Is .intLiteral _) (by simp)
      exact Tree.is_node _ (.intLiteral ⟨_, _, text, signed, described⟩) (by simp) (by simp)
  | num =>
      refine Tree.is_atom_of (?_ : Tree.Is .numLiteral _) (by simp)
      exact Tree.is_node _ (.numLiteral ⟨_, _, text, signed, described⟩) (by simp) (by simp)

/-- At the beginning of a line the trees behind are those of a program, and the latest of them is a
newline. -/
structure IsSound (reading : Reading) : Prop where
  statements : ∀ tree ∈ reading.finished, tree.IsStatement
  separated : reading.finished.IsChain Tree.Apart
  lineStart : ∀ latest ∈ reading.finished.head?, latest.production = .newline
  stage : reading.stage.IsSound

theorem newline_statement {token : Token} (text : token.text = "\n") :
    (Tree.ofToken .newline token).IsStatement := by
  rw [Tree.ofToken, text]
  exact (Tree.is_node _ .newline (by simp) (by simp)).statement (by simp)

theorem separated_statement {statement : Tree} (separated : finished.IsChain Tree.Apart)
    (lineStart : ∀ latest ∈ finished.head?, latest.production = .newline) :
    (statement :: finished).IsChain Tree.Apart := by
  cases finished with
  | nil => exact .singleton _
  | cons latest finished => exact .cons_cons (.inr (lineStart latest rfl)) separated

theorem separated_newline {newline : Tree} (same : newline.production = .newline)
    (separated : finished.IsChain Tree.Apart) : (newline :: finished).IsChain Tree.Apart := by
  cases finished with
  | nil => exact .singleton _
  | cons latest finished => exact .cons_cons (.inl same) separated

theorem IsSound.move {reading : Reading} {next : Stage} (sound : reading.IsSound)
    (moved : next.IsSound) : IsSound ⟨reading.finished, next⟩ :=
  ⟨sound.statements, sound.separated, sound.lineStart, moved⟩

theorem ended_sound {head : Head} {chain : Chain} {atom : Tree}
    (sound : IsSound ⟨finished, stage⟩) (read : AtomRead stage ⟨head, [], chain⟩ atom) :
    (∀ tree ∈ head.finish (chain.finish atom) :: finished, tree.IsStatement) ∧
      (head.finish (chain.finish atom) :: finished).IsChain Tree.Apart := by
  obtain ⟨around, atomIs⟩ := atom_read_sound read sound.stage
  refine ⟨fun tree member => ?_, separated_statement sound.separated sound.lineStart⟩
  rcases List.mem_cons.mp member with rfl | member
  · exact Head.finish_is around.head (Chain.finish_is around.chain atomIs)
  · exact sound.statements tree member

/-- Every token inside the text keeps the reading sound. -/
theorem sound_of_takes {reading next : Reading} {token : Token} (takes : Takes reading token next)
    (proper : token.IsProper) (sound : reading.IsSound) : next.IsSound := by
  have symbol : ∀ {kind : TokenKind} {text : String}, token.kind = kind →
      kind.symbol? = some text → token.text = text := by
    intro kind text same symbol
    exact (Token.symbol_of_proper proper (by rw [same]; exact symbol)).1
  have named : token.kind = .ident → Scan.IsName token.text := by
    intro kind
    have described := proper.described
    rw [kind] at described
    exact described
  have here := sound.stage
  cases takes with
  | newline kind =>
      refine ⟨fun tree member => ?_, separated_newline rfl sound.separated, ?_, trivial⟩
      · rcases List.mem_cons.mp member with rfl | member
        · exact newline_statement (symbol kind rfl)
        · exact sound.statements tree member
      · rintro latest ⟨⟩
        rfl
  | stop kind => exact absurd kind proper.inside
  | echo kind => exact sound.move (Inside.start_sound (.echo (symbol kind rfl)))
  | name kind => exact sound.move (named kind)
  | assign kind => exact sound.move (Inside.start_sound (.assign here))
  | colon kind => exact sound.move here
  | define kind => exact sound.move (Inside.start_sound (.define here))
  | declared kind => exact sound.move ⟨here, named kind⟩
  | defineAs kind => exact sound.move (Inside.start_sound (.defineAs here.1 here.2))
  | openSignature kind =>
      exact sound.move ⟨here.1, here.2, symbol kind rfl, by simp⟩
  | parameterName kind => exact sound.move ⟨here, named kind⟩
  | parameterColon kind => exact sound.move here
  | parameterKind kind => exact sound.move ⟨here.1, here.2, named kind⟩
  | parameterComma kind =>
      obtain ⟨signature, name, declared⟩ := here
      refine sound.move ⟨signature.named, signature.declared, signature.opened, ?_⟩
      intro item member
      rcases List.mem_cons.mp member with rfl | member
      · exact ⟨name, Tree.is_name declared, token, rfl, symbol kind rfl⟩
      · exact signature.parameters item member
  | lastParameter kind =>
      obtain ⟨signature, name, declared⟩ := here
      refine sound.move ⟨signature.named, OpenSignature.finish_is signature
        (some (_, _)) ?_ (symbol kind rfl)⟩
      rintro last ⟨⟩
      exact ⟨name, Tree.is_name declared⟩
  | closeSignature kind =>
      exact sound.move ⟨here.named, OpenSignature.finish_is here none (by simp)
        (symbol kind rfl)⟩
  | defineCallable kind => exact sound.move (Inside.start_sound (.callable here.1 here.2))
  | openGroup begins kind =>
      have around := atom_begins_sound begins here
      exact sound.move (Inside.enter_sound around (.group (symbol kind rfl) around.chain))
  | @number _ _ _ _ production begins leaf =>
      have is := number_is "" leaf proper (.inl rfl) token.location
      rw [String.empty_append] at is
      exact sound.move ⟨atom_begins_sound begins here, is⟩
  | sign begins kind =>
      refine sound.move ⟨atom_begins_sound begins here, ?_⟩
      rcases kind with kind | kind
      · exact .inr (.inl (by rw [symbol kind rfl]; rfl))
      · exact .inr (.inr (by rw [symbol kind rfl]; rfl))
  | signedNumber adjacent leaf =>
      exact sound.move ⟨here.1, number_is _ leaf proper here.2 _⟩
  | atomName kind => exact sound.move ⟨here, named kind⟩
  | openCall read kind =>
      obtain ⟨around, callee⟩ := name_read_sound read here
      exact sound.move ⟨around, callee, symbol kind rfl, by simp⟩
  | argumentName kind => exact sound.move ⟨here.1, here.2, named kind⟩
  | argumentEquals kind =>
      obtain ⟨around, called, name⟩ := here
      exact sound.move (Inside.enter_sound around (.argument called name around.chain))
  | closeCall kind distinct =>
      exact sound.move ⟨here.1, OpenCall.finish_is here.2 none (by simp)
        (symbol kind rfl) distinct⟩
  | caret read kind =>
      obtain ⟨around, is⟩ := atom_read_sound read here
      exact sound.move ⟨around.head, around.openings, Chain.raise_sound around.chain is⟩
  | multiplicative read kind =>
      obtain ⟨around, is⟩ := atom_read_sound read here
      have sign : token.text ∈ ["*", "/"] := by
        rcases kind with kind | kind <;> simp [symbol kind rfl]
      exact sound.move ⟨around.head, around.openings, Chain.multiply_sound around.chain is sign⟩
  | additive read kind =>
      obtain ⟨around, is⟩ := atom_read_sound read here
      have sign : token.text ∈ ["+", "-"] := by
        rcases kind with kind | kind <;> simp [symbol kind rfl]
      exact sound.move ⟨around.head, around.openings, Chain.add_sound around.chain is sign⟩
  | endLine read kind =>
      obtain ⟨statements, separated⟩ := ended_sound sound read
      refine ⟨fun tree member => ?_, separated_newline rfl separated, ?_, trivial⟩
      · rcases List.mem_cons.mp member with rfl | member
        · exact newline_statement (symbol kind rfl)
        · exact statements tree member
      · rintro latest ⟨⟩
        rfl
  | endProgram read kind => exact absurd kind proper.inside
  | closeGroup read kind =>
      obtain ⟨⟨head, openings, chain⟩, is⟩ := atom_read_sound read here
      obtain ⟨opened, others⟩ := List.forall_mem_cons.mp openings
      cases opened with
      | group opened around =>
          exact sound.move ⟨⟨head, others, around⟩,
            Tree.is_group opened (Chain.finish_is chain is) (symbol kind rfl)⟩
  | argumentComma read kind =>
      obtain ⟨⟨head, openings, chain⟩, is⟩ := atom_read_sound read here
      obtain ⟨opened, others⟩ := List.forall_mem_cons.mp openings
      cases opened with
      | argument called name around =>
          refine sound.move ⟨⟨head, others, around⟩, called.named, called.opened, ?_⟩
          intro item member
          rcases List.mem_cons.mp member with rfl | member
          · exact ⟨name, Chain.finish_is chain is, token, rfl, symbol kind rfl⟩
          · exact called.arguments item member
  | lastArgument read kind distinct =>
      obtain ⟨⟨head, openings, chain⟩, is⟩ := atom_read_sound read here
      obtain ⟨opened, others⟩ := List.forall_mem_cons.mp openings
      cases opened with
      | argument called name around =>
          refine sound.move ⟨⟨head, others, around⟩, OpenCall.finish_is called
            (some (_, _)) ?_ (symbol kind rfl) distinct⟩
          rintro last ⟨⟩
          exact ⟨name, Chain.finish_is chain is⟩

theorem program_of_stop {reading last : Reading} {stop : Token} (takes : Takes reading stop last)
    (kind : stop.kind = .eof) (sound : reading.IsSound) : IsProgram last.finished.reverse := by
  have program : ∀ {trees : List Tree}, (∀ tree ∈ trees, tree.IsStatement) →
      trees.IsChain Tree.Apart → IsProgram trees.reverse := by
    intro trees statements separated
    refine ⟨fun tree member => (statements tree (List.mem_reverse.mp member)).topLevel, ?_,
      fun tree member => (statements tree (List.mem_reverse.mp member)).wellFormed.shaped,
      fun tree member => (statements tree (List.mem_reverse.mp member)).wellFormed.distinct⟩
    rw [List.isChain_reverse]
    exact separated.imp fun _ _ apart => apart.symm
  cases takes with
  | stop => exact program sound.statements sound.separated
  | endProgram read =>
      obtain ⟨statements, separated⟩ := ended_sound sound read
      exact program statements separated
  | number _ leaf => rw [kind] at leaf; cases leaf
  | signedNumber _ leaf => rw [kind] at leaf; cases leaf
  | _ => simp_all

theorem start_sound : start.IsSound := ⟨by simp [start], .nil, by simp [start], trivial⟩

theorem sound_of_run {reading last : Reading} {tokens : List Token}
    (ran : reading.run tokens = .ok last) (proper : ∀ token ∈ tokens, token.IsProper)
    (sound : reading.IsSound) : last.IsSound := by
  induction tokens generalizing reading with
  | nil =>
      cases ran
      exact sound
  | cons token tokens induction =>
      obtain ⟨next, takes, rest⟩ := takes_of_run_cons ran
      have nextSound := sound_of_takes takes (proper token (by simp)) sound
      exact induction rest (fun other member => proper other (by simp [member])) nextSound

end Reading

/-- A text that parses scans, and its trees are what is left after the end of input. -/
theorem run_of_parse {source : String} {forest : List Tree} (parsed : parse source = .ok forest) :
    ∃ body stop reading last, tokens source = .ok (body ++ [stop]) ∧
      (∀ token ∈ body, token.IsProper) ∧ stop.kind = .eof ∧
      Reading.start.run body = .ok reading ∧ Reading.Takes reading stop last ∧
      forest = last.finished.reverse := by
  obtain ⟨scanned, scan, read⟩ := parse_eq_ok_iff.mp parsed
  obtain ⟨body, stop, rfl, proper, ends⟩ := tokens_proper scan
  rw [parseTokens] at read
  cases run : Reading.start.run (body ++ [stop]) with
  | error error =>
      rw [run] at read
      cases read
  | ok last =>
      rw [run] at read
      cases read
      obtain ⟨reading, ran, stopped⟩ := Reading.run_of_append run
      obtain ⟨next, takes, rest⟩ := Reading.takes_of_run_cons stopped
      cases rest
      exact ⟨body, stop, reading, last, scan, proper, ends, ran, takes, rfl⟩

theorem program_of_parse {source : String} {forest : List Tree}
    (parsed : parse source = .ok forest) : IsProgram forest := by
  obtain ⟨body, stop, reading, last, _, proper, ends, ran, takes, rfl⟩ := run_of_parse parsed
  exact Reading.program_of_stop takes ends (Reading.sound_of_run ran proper Reading.start_sound)

/-- Whatever a text parses to follows the table in all its nodes, and its leaves in order are the
tokens of the text before the end of input. -/
theorem parse_keeps_shapes_and_tokens {source : String} {forest : List Tree}
    (parsed : parse source = .ok forest) :
    IsProgram forest ∧ ∃ body stop, tokens source = .ok (body ++ [stop]) ∧ stop.kind = .eof ∧
      (∀ token ∈ body, token.kind ≠ .eof) ∧ Spells (Tree.forestLexemes forest) body := by
  refine ⟨program_of_parse parsed, ?_⟩
  obtain ⟨body, stop, reading, last, scanned, proper, ends, ran, takes, rfl⟩ := run_of_parse parsed
  refine ⟨body, stop, scanned, ends, fun token member => (proper token member).inside, ?_⟩
  have start : Reading.start.SpelledBy [] :=
    ⟨[], rfl, .nil, by simp [Reading.start, Stage.heldSign]⟩
  have spelled := Reading.spelled_by_run ran proper start
  rw [List.nil_append] at spelled
  exact Reading.spelled_by_stop takes ends spelled

/-- A call with a trailing comma and a signed argument, and a newline behind. -/
theorem parse_keeps_shapes_and_tokens_of_call :
    ∃ forest, parse "f(a = -1,) ^ 2\n" = .ok forest ∧ IsProgram forest ∧ ∃ body stop,
      tokens "f(a = -1,) ^ 2\n" = .ok (body ++ [stop]) ∧ stop.kind = .eof ∧
      (∀ token ∈ body, token.kind ≠ .eof) ∧ Spells (Tree.forestLexemes forest) body :=
  ⟨_, rfl, parse_keeps_shapes_and_tokens rfl⟩

end Reckon
