import Reckon.Proofs.Grammar.Renaming

/-!
A reading can be brought to an end from wherever it has come to: what has been opened is closed, and
what is missing is given. Only arguments given twice, which no token behind them mends, may be
found on the way.
-/

namespace Reckon

/-- A token with the text that its kind has. It stands nowhere. -/
def Token.ofSymbol (kind : TokenKind) : Token := ⟨kind, kind.symbol?.getD "", .unknown⟩

theorem Token.of_symbol_proper (kind : TokenKind) (symbol : kind.symbol?.isSome) :
    (Token.ofSymbol kind).IsProper := by
  cases kind with
  | int | num | ident | eof => cases symbol
  | _ => exact ⟨by decide, rfl⟩

/-- The number nought, directly behind a sign. -/
def Token.noughtAfter (sign : Token) : Token := ⟨.int, "0", ⟨.point sign.span.stop, .start⟩⟩

theorem Token.nought_proper (sign : Token) : sign.noughtAfter.IsProper :=
  ⟨TokenKind.noConfusion, by simp [noughtAfter, TokenKind.Describes, Scan.IsDigits, Scan.isDigit]⟩

theorem Token.nought_adjacent (sign : Token) : sign.isAdjacent sign.noughtAfter = true := by
  simp [isAdjacent, noughtAfter, span, Span.point]

/-- The name of the kind that a parameter may be given. -/
def Token.someKind : Token := ⟨.ident, "b", .unknown⟩

theorem Token.some_kind_proper : Token.someKind.IsProper :=
  ⟨by decide, ⟨'b', [], rfl, by decide, by simp⟩, by decide⟩

theorem Token.some_kind_fresh (index : Nat) : nameAt index ≠ Token.someKind.text := by
  intro same
  have first := congrArg (·.toList.head?) same
  simp [nameAt, List.replicate_succ, Token.someKind] at first

namespace Reading

/-- Some tokens with these names bring the reading to the end, unless it turns out there that an
argument is given twice. -/
def Finishes (reading : Reading) (names : List String) : Prop :=
  ∃ more : List Token, (∀ token ∈ more, token.IsProper) ∧ more.filterMap Token.name? = names ∧
    ∀ stop : Token, stop.kind = .eof →
      (∃ last, reading.run (more ++ [stop]) = .ok last) ∨ Repeats (reading.run (more ++ [stop]))

variable {reading next : Reading} {finished : List Tree} {stage : Stage} {inside : Inside}
  {token : Token} {names : List String}

theorem finishes_at_end
    (ends : ∀ stop : Token, stop.kind = .eof → ∃ last, Takes reading stop last) :
    reading.Finishes [] := by
  refine ⟨[], by simp, rfl, fun stop kind => .inl ?_⟩
  obtain ⟨last, takes⟩ := ends stop kind
  exact ⟨last, run_of_takes takes⟩

theorem finishes_of_takes (takes : Takes reading token next) (proper : token.IsProper)
    (finishes : next.Finishes names) : reading.Finishes (token.name?.toList ++ names) := by
  obtain ⟨more, allProper, rfl, ends⟩ := finishes
  refine ⟨token :: more, by simpa using ⟨proper, allProper⟩, ?_, fun stop kind => ?_⟩
  · rw [List.filterMap_cons]
    cases token.name? <;> rfl
  · rw [List.cons_append, run_of_takes takes]
    exact ends stop kind

theorem finishes_of_repeats (repeats : Repeats (reading.step token)) (proper : token.IsProper) :
    reading.Finishes token.name?.toList := by
  refine ⟨[token], by simpa using proper, ?_, fun stop _ => .inr ?_⟩
  · rw [List.filterMap_cons]
    cases token.name? <;> rfl
  · rw [List.singleton_append, run_cons]
    exact repeats.bind [stop]

/-- What is open around an atom is closed from the inside to the outside. -/
theorem finishes_after_atom {atom : Tree} (read : AtomRead stage inside atom) :
    Finishes ⟨finished, stage⟩ [] := by
  have closing := Token.of_symbol_proper .rightParen rfl
  obtain ⟨head, openings, chain⟩ := inside
  induction openings generalizing stage chain atom with
  | nil => exact finishes_at_end fun stop kind => ⟨_, .endProgram read kind⟩
  | cons opening openings induction =>
      cases opening with
      | group opening around =>
          exact finishes_of_takes (.closeGroup read rfl) closing (induction _ (.whole _ _))
      | argument call name around =>
          cases repeated : OpenCall.repeated? { call with
              arguments := ⟨name, chain.finish atom, none⟩ :: call.arguments } with
          | none =>
              exact finishes_of_takes (.lastArgument read rfl repeated) closing
                (induction _ (.whole _ _))
          | some again =>
              refine finishes_of_repeats ⟨again.text, again.location, ?_⟩ closing
              rw [step_after_atom read (by decide)]
              simp [afterAtom, Token.ofSymbol, closeExpr, closeCall, repeated]

theorem finishes_where_atom_due (inside : Inside) : Finishes ⟨finished, .atomDue inside⟩ [] := by
  have leaf : NumberLeaf (default : Token).noughtAfter.kind .intLiteral := .int
  exact finishes_of_takes (.number (.due inside) leaf) (Token.nought_proper default)
    (finishes_after_atom (.whole _ _))

theorem finishes_after_signature (name : Token) (signature : Tree) :
    Finishes ⟨finished, .signatureRead name signature⟩ [] :=
  finishes_of_takes (.defineCallable rfl) (Token.of_symbol_proper .equals rfl)
    (finishes_where_atom_due _)

theorem finishes_after_parameter (signature : OpenSignature) (name kind : Token) :
    Finishes ⟨finished, .parameterRead signature name kind⟩ [] :=
  finishes_of_takes (.lastParameter rfl) (Token.of_symbol_proper .rightParen rfl)
    (finishes_after_signature _ _)

theorem finishes_where_kind_due (signature : OpenSignature) (name : Token) :
    Finishes ⟨finished, .parameterKindDue signature name⟩ ["b"] :=
  finishes_of_takes (.parameterKind rfl) Token.some_kind_proper (finishes_after_parameter _ _ _)

theorem finishes_where_argument_due (inside : Inside) (call : OpenCall) :
    Finishes ⟨finished, .argumentDue inside call⟩ [] := by
  have closing := Token.of_symbol_proper .rightParen rfl
  cases repeated : call.repeated? with
  | none =>
      exact finishes_of_takes (.closeCall rfl repeated) closing (finishes_after_atom (.whole _ _))
  | some again =>
      refine finishes_of_repeats ⟨again.text, again.location, ?_⟩ closing
      simp [step, Token.ofSymbol, closeCall, repeated]

/-- Every reading finishes, with at most one name that it makes up. -/
theorem finishes (reading : Reading) : ∃ names, names.Sublist ["b"] ∧ reading.Finishes names := by
  have unnamed {reading : Reading} (finishes : reading.Finishes []) :
      ∃ names, names.Sublist ["b"] ∧ reading.Finishes names := ⟨[], by simp, finishes⟩
  have equals := Token.of_symbol_proper .equals rfl
  obtain ⟨finished, stage⟩ := reading
  cases stage with
  | start => exact unnamed (finishes_at_end fun _ kind => ⟨_, .stop kind⟩)
  | named name => exact unnamed (finishes_after_atom (.name (.bare name)))
  | definition name =>
      exact unnamed (finishes_of_takes (.define rfl) equals (finishes_where_atom_due _))
  | kindRead name kind =>
      exact unnamed (finishes_of_takes (.defineAs rfl) equals (finishes_where_atom_due _))
  | parameterDue signature =>
      exact unnamed (finishes_of_takes (.closeSignature rfl)
        (Token.of_symbol_proper .rightParen rfl) (finishes_after_signature _ _))
  | parameterNamed signature name =>
      refine ⟨["b"], by simp, finishes_of_takes (.parameterColon rfl)
        (Token.of_symbol_proper .colon rfl) (finishes_where_kind_due _ _)⟩
  | parameterKindDue signature name => exact ⟨["b"], by simp, finishes_where_kind_due _ _⟩
  | parameterRead signature name kind => exact unnamed (finishes_after_parameter _ _ _)
  | signatureRead name signature => exact unnamed (finishes_after_signature _ _)
  | atomDue inside => exact unnamed (finishes_where_atom_due inside)
  | signRead inside sign =>
      exact unnamed (finishes_of_takes (.signedNumber sign.nought_adjacent .int)
        sign.nought_proper (finishes_after_atom (.whole _ _)))
  | nameRead inside name => exact unnamed (finishes_after_atom (.name (.inside inside name)))
  | atomRead inside atom => exact unnamed (finishes_after_atom (.whole inside atom))
  | argumentDue inside call => exact unnamed (finishes_where_argument_due inside call)
  | argumentNamed inside call name =>
      exact unnamed (finishes_of_takes (.argumentEquals rfl) equals (finishes_where_atom_due _))

end Reading

end Reckon
