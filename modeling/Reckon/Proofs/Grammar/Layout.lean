import Reckon.Proofs.Grammar.Parallel
import Reckon.Proofs.Tree.Unlocated

/-!
Where the tokens of a text stand does not matter to the grammar. Texts with the same tokens, in
which the same signs are joined to the numbers after them, are read to trees of the same structure
or refused for the same reason at the same token.
-/

namespace Reckon

/-- The spans are those of tokens with the same index. -/
def OnSameToken (scanned others : List Token) (span other : Span) : Prop :=
  ∃ (index : Nat) (token token' : Token), scanned[index]? = some token ∧
    others[index]? = some token' ∧ span = token.span ∧ other = token'.span

/-- The errors say the same, and blame tokens with the same index. -/
structure ParseError.Agrees (scanned others : List Token) (error other : ParseError) : Prop where
  code : error.code = other.code
  message : error.message = other.message
  expected : error.expected = other.expected
  help : error.help = other.help
  blamed : OnSameToken scanned others error.location.span other.location.span
  related? : Option.Rel (OnSameToken scanned others) error.related? other.related?

namespace Correspondence

variable {scanned others : List Token}

theorem word_of_same_index (words : scanned.map Token.word = others.map Token.word)
    {token other : Token} {index : Nat} (here : scanned[index]? = some token)
    (there : others[index]? = some other) : token.word = other.word := by
  have same := congrArg (·[index]?) words
  simpa [List.getElem?_map, here, there] using same

theorem alike_pieces {pieces more : List (Piece Tree)}
    (all : List.Forall₂ (Piece.Like (· = ·) Tree.Alike) pieces more) :
    Tree.AlikePieces pieces more := by
  induction all with
  | nil => rfl
  | cons alike _ induction =>
      cases alike with
      | tree alike => exact Tree.alike_cons_tree alike induction
      | token same => exact same ▸ Tree.alike_cons_token induction

/-- Tokens of the same index, trees of the same structure, and any locations. -/
def ofWords (words : scanned.map Token.word = others.map Token.word) : Correspondence where
  tokens token other := ∃ index, scanned[index]? = some token ∧ others[index]? = some other
  texts := (· = ·)
  trees := Tree.Alike
  locations _ _ := True
  kind := fun ⟨_, here, there⟩ => congrArg Word.kind (word_of_same_index words here there)
  text := fun ⟨_, here, there⟩ => congrArg Word.text (word_of_same_index words here there)
  location _ := trivial
  placed _ := trivial
  symbol _ := rfl
  joined := congrArg₂ (· ++ ·)
  point _ := trivial
  through _ _ := trivial
  node _ _ _ _ _ all _ := Tree.alike_node (alike_pieces all)

theorem all_of_words (words : scanned.map Token.word = others.map Token.word) :
    List.Forall₂ (ofWords words).tokens scanned others := by
  have lengths : scanned.length = others.length := by simpa using congrArg List.length words
  refine List.forall₂_iff_get.mpr ⟨lengths, fun index here there => ⟨index, ?_, ?_⟩⟩
  · exact List.getElem?_eq_getElem here
  · exact List.getElem?_eq_getElem there

end Correspondence

/-- Layout does not matter: if two texts have the same tokens and the same signs are joined to
numbers, either both parse, to trees of the same structure, or neither does, for the same reason and
at the same token. -/
theorem layout_does_not_matter {source other : String} {scanned others : List Token}
    (first : tokens source = .ok scanned) (second : tokens other = .ok others)
    (words : scanned.map Token.word = others.map Token.word)
    (joined : joinedSigns scanned = joinedSigns others) :
    (∃ forest forest', parse source = .ok forest ∧ parse other = .ok forest' ∧
        List.Forall₂ (fun tree tree' => tree.sameStructure tree' = true) forest forest') ∨
      ∃ error error', parse source = .error error ∧ parse other = .error error' ∧
        error.Agrees scanned others error' := by
  let like := Correspondence.ofWords words
  have start : Reading.start.Like like .start := ⟨.nil, .start⟩
  have outcome := Reading.run_like start (Correspondence.all_of_words words)
    (by simp [Reading.start, Stage.heldSign]) joined
  have spans : ∀ {token token' : Token}, like.tokens token token' →
      OnSameToken scanned others token.span token'.span := by
    rintro token token' ⟨index, here, there⟩
    exact ⟨index, token, token', here, there, rfl, rfl⟩
  rw [parse_of_tokens first, parse_of_tokens second, parseTokens, parseTokens]
  generalize Reading.start.run scanned = left at outcome ⊢
  generalize Reading.start.run others = right at outcome ⊢
  cases outcome with
  | @ok reading reading' readings =>
      refine .inl ⟨_, _, rfl, rfl, ?_⟩
      exact (List.rel_reverse readings.finished).imp fun tree tree' =>
        (Tree.same_structure_iff tree tree').mpr
  | unexpected expected blamed =>
      refine .inr ⟨_, _, rfl, rfl, ?_⟩
      rw [like.kind blamed]
      exact ⟨rfl, rfl, rfl, rfl, spans blamed, .none⟩
  | unclosedParen opened blamed =>
      refine .inr ⟨_, _, rfl, rfl, ?_⟩
      rw [like.kind blamed]
      exact ⟨rfl, rfl, rfl, rfl, spans blamed, .some (spans opened)⟩
  | detachedSign blamed =>
      refine .inr ⟨_, _, rfl, rfl, ?_⟩
      rw [like.kind blamed]
      exact ⟨rfl, rfl, rfl, rfl, spans blamed, .none⟩
  | repeatedArgument blamed texts =>
      refine .inr ⟨_, _, rfl, rfl, ?_⟩
      rw [texts]
      exact ⟨rfl, rfl, rfl, rfl, spans blamed, .none⟩
  | repeats renamed => exact absurd (fun token other alike => like.text alike) renamed

/-- A sum with a signed number, with different blanks. -/
theorem layout_of_sum_does_not_matter :
    ∃ scanned others, tokens "echo -1+ 2\n" = .ok scanned ∧
      tokens "echo  -1  + 2\n" = .ok others ∧
      scanned.map Token.word = others.map Token.word ∧
      joinedSigns scanned = joinedSigns others ∧
      ((∃ forest forest', parse "echo -1+ 2\n" = .ok forest ∧
          parse "echo  -1  + 2\n" = .ok forest' ∧
          List.Forall₂ (fun tree tree' => tree.sameStructure tree' = true) forest forest') ∨
        ∃ error error', parse "echo -1+ 2\n" = .error error ∧
          parse "echo  -1  + 2\n" = .error error' ∧ error.Agrees scanned others error') := by
  refine ⟨_, _, rfl, rfl, ?words, ?joined, layout_does_not_matter rfl rfl ?words ?joined⟩
  · decide +kernel
  · decide +kernel

end Reckon
