import Reckon.Proofs.Evaluation.Nesting
import Reckon.Proofs.Evaluation.Outcome
import Reckon.Proofs.Evaluation.Shaped
import Reckon.Proofs.Grammar.Numbers
import Reckon.Proofs.Number.Integers

/-!
Programs that are one integer. Whatever the number of digits, such a program is read, and running it
gives the integer that the digits write or blames the literal for one that 64 bits do not hold.
-/

namespace Reckon

/-- The decimal form of an integer: digits, and right before them a sign or none. -/
structure SignedDigits where
  sign : List Char
  digits : List Char
  signed : Scan.IsSign sign
  written : Scan.IsDigits digits

namespace SignedDigits

def text (form : SignedDigits) : String := String.ofList (form.sign ++ form.digits)

/-- The integer that is written, whatever its size. -/
def value (form : SignedDigits) : Int :=
  Number.applySign (decide (form.sign = ['-'])) (Nat.ofDigitChars 10 form.digits 0)

/-- The text of an integer is a decimal form of it. -/
theorem of_integer (number : Int) :
    ∃ form : SignedDigits, form.text = toString number ∧ form.value = number := by
  obtain ⟨sign, chars, signed, same⟩ := Number.integer_text number
  refine ⟨⟨sign, Nat.toDigits 10 number.natAbs, signed, Number.decimal_digits _⟩, ?_, ?_⟩
  · rw [text, ← chars, String.ofList_toList]
  · rw [value, Nat.ofDigitChars_ten_toDigits, ← same]

theorem read_int (form : SignedDigits) :
    Number.readInt? form.text = Number.toInt64? form.value := by
  rw [Number.read_int_eq, text, String.toList_ofList,
    Number.exact_of_sign_and_digits form.signed form.written]
  rfl

/-- A decimal form is read if some 64-bit integer has its value. -/
theorem read_of_value {form : SignedDigits} {number : Int64} (same : number.toInt = form.value) :
    Value.read form.text .int = .ok (.int number) := by
  have fits : Number.toInt64? form.value = some number := by
    rw [← same, Number.toInt64?, if_pos ⟨number.minValue_le_toInt, number.toInt_le⟩,
      Int64.ofInt_toInt]
  rw [Value.read, Value.read?, read_int, fits]
  rfl

theorem refuse_of_value {form : SignedDigits} (none : ∀ number : Int64, number.toInt ≠ form.value) :
    Value.read form.text .int = .error (.of (.invalidLiteral .int form.text)) := by
  have beyond : Number.toInt64? form.value = Option.none := by
    rw [Number.toInt64?, if_neg]
    rintro ⟨least, greatest⟩
    exact none _ (Int64.toInt_ofInt_of_le least (Int.lt_add_one_of_le greatest))
  rw [Value.read, Value.read?, read_int, beyond]
  rfl

end SignedDigits

namespace Evaluation

/-- An expression that is one number does what its leaf does. -/
theorem of_tree_number {names : Names}
    {enter : Callable → List (String × Value) → Evaluation Value} {production : Production}
    (literal : production = .intLiteral ∨ production = .numLiteral) (text : String)
    (place : Location) :
    ofTree names enter (.ofNumber production text place) =
      ofTree names enter (.leaf production text place) := by
  have atom : ofTree names enter (.atomOf (.leaf production text place)) =
      ofTree names enter (.leaf production text place) := by
    apply of_tree_simple
    rcases literal with rfl | rfl <;> simp [Tree.leaf, Tree.production]
  let inner : Tree := .atomOf (.leaf production text place)
  have factor : ofTree names enter (.factorOf inner) = ofTree names enter inner :=
    of_tree_factor rfl
  have term : ofTree names enter (finishChain .term [] (.factorOf inner)) =
      ofTree names enter (.factorOf inner) :=
    @chain_last names enter .term place (.factorOf inner) rfl
  have expression : ofTree names enter (.ofNumber production text place) =
      ofTree names enter (finishChain .term [] (.factorOf inner)) :=
    @chain_last names enter .expr place (finishChain .term [] (.factorOf inner)) rfl
  rw [expression, term, factor, atom]

/-- A number comes to what its text is read as. -/
theorem evaluate_number {kind : Kind} {production : Production}
    (literal : production = .intLiteral ∧ kind = .int ∨ production = .numLiteral ∧ kind = .num)
    (text : String) (place : Location) (scope : Scope) (calls : Calls) :
    (Tree.ofNumber production text place).evaluate scope calls =
      some (located place (Value.read text kind), calls) := by
  -- no call is entered, so that any depth of calls will do
  obtain ⟨depth, allowed⟩ := allowance_positive scope calls
  have number : production = .intLiteral ∨ production = .numLiteral :=
    literal.imp (·.1) (·.1)
  rw [Tree.evaluate, allowed, within_succ, of_tree_number number, of_tree_leaf literal]
  cases located place (Value.read text kind) <;> rfl

end Evaluation

namespace Session

/-- A program that is one expression ends as the expression does. -/
theorem run_expression {source : String} {tree : Tree} {session : Session}
    {outcome : Except Fault Value} (read : parse source = .ok [tree])
    (fits : tree.production = .expr)
    (ended : tree.evaluate session.scope session.calls = some (outcome, session.calls)) :
    session.run source = some ((outcome.map some).mapError .faulty, session) := by
  have evaluated : Execution.evaluate tree session = some (outcome, session) := by
    rw [Execution.evaluate, ended]
    rfl
  have statement : Execution.ofTree tree = some <$> Execution.evaluate tree := by
    rw [Execution.ofTree, fits]
  have executed : session.execute [tree] = some (outcome.map some, session) := by
    rw [Session.execute, Execution.ofTrees, statement, ← bind_pure_comp, bind_assoc, bind_apply,
      evaluated]
    cases outcome <;> rfl
  rw [Session.run, read]
  change (session.execute [tree]).map _ = _
  rw [executed]
  rfl

end Session

namespace SignedDigits

variable (form : SignedDigits) (session : Session)

theorem described : TokenKind.int.Describes (String.ofList form.digits) := by
  simpa [TokenKind.Describes] using form.written

section

variable (fits : Text.byteSize form.text.toList ≤ Span.maxOffset)

include fits

theorem parse_digits : parse form.text =
    .ok [.ofNumber .intLiteral form.text (.ofText (form.sign ++ form.digits))] := by
  rw [text, String.toList_ofList] at fits
  exact parse_number form.signed .int form.described fits

theorem run_digits : session.run form.text = some
    (((located (.ofText (form.sign ++ form.digits)) (Value.read form.text .int)).map some).mapError
      .faulty, session) :=
  Session.run_expression (form.parse_digits fits) rfl
    (Evaluation.evaluate_number (.inl ⟨rfl, rfl⟩) ..)

theorem run_of_value {number : Int64} (same : number.toInt = form.value) :
    session.run form.text = some (.ok (some (.int number)), session) := by
  rw [form.run_digits session fits, read_of_value same]
  rfl

end

/-- More digits than spans reach over are refused for their size. -/
theorem run_beyond (beyond : Span.maxOffset < Text.byteSize form.text.toList) :
    ∃ error, error.code = .sourceTooLarge ∧
      session.run form.text = some (.error (.unreadable error), session) := by
  obtain ⟨_, _, _, _, scanned⟩ := unbounded_number form.signed (by decide) form.described
  obtain ⟨error, refused, code⟩ := parse_of_oversized scanned beyond
  exact ⟨error, code, Session.run_of_parse_error refused session⟩

end SignedDigits

/-- The text of an integer of 64 bits has a sign and at most nineteen digits. -/
theorem Value.integer_text_fits (number : Int64) :
    Text.byteSize (Value.int number).text.toList ≤ Span.maxOffset := by
  have below : number.toInt.natAbs < 10 ^ 19 := by
    have least := number.le_toInt
    have greatest := number.toInt_lt
    omega
  have length := Number.integer_text_length (by decide) below
  have size := Text.byte_size_le (toString number.toInt).toList
  refine Nat.le_trans (Nat.le_trans size (Nat.mul_le_mul_left 4 length)) ?_
  decide

/-- A program that is an integer, in digits of any number that spans reach over and with a sign
right before them or none, is read as one expression. Running it gives the integer that is written
if 64 bits hold it, and otherwise fails for the literal from its first character on. With more
digits it is refused for its size. Any integer that is a value is read back from the text that it is
printed as. -/
theorem integers_read_back (session : Session) :
    (∀ form : SignedDigits,
      (Text.byteSize form.text.toList ≤ Span.maxOffset →
        (∃ tree, parse form.text = .ok [tree] ∧ tree.production = .expr) ∧
        (∀ number : Int64, number.toInt = form.value →
          session.run form.text = some (.ok (some (.int number)), session)) ∧
        ((∀ number : Int64, number.toInt ≠ form.value) → session.run form.text =
          some (.error (.faulty ⟨.invalidLiteral .int form.text,
            some ⟨⟨0, Text.byteSize form.text.toList⟩, ⟨1, 1⟩⟩, []⟩), session))) ∧
      (Span.maxOffset < Text.byteSize form.text.toList →
        ∃ error, error.code = .sourceTooLarge ∧
          session.run form.text = some (.error (.unreadable error), session))) ∧
    ∀ number : Int64,
      (∃ tree, parse (Value.int number).text = .ok [tree] ∧ tree.production = .expr) ∧
      session.run (Value.int number).text = some (.ok (some (.int number)), session) := by
  refine ⟨fun form => ⟨fun fits => ⟨⟨_, form.parse_digits fits, rfl⟩,
    fun _ => form.run_of_value session fits, fun none => ?_⟩, form.run_beyond session⟩,
    fun number => ?_⟩
  · rw [form.run_digits session fits, SignedDigits.refuse_of_value none, SignedDigits.text,
      String.toList_ofList]
    rfl
  · obtain ⟨form, text, value⟩ := SignedDigits.of_integer number.toInt
    have same : (Value.int number).text = form.text := text.symm
    have fits := Value.integer_text_fits number
    rw [same] at fits ⊢
    exact ⟨⟨_, form.parse_digits fits, rfl⟩, form.run_of_value session fits value.symm⟩

/-- The least integer is read from digits that without their sign are refused. -/
theorem least_integer_reads_back :
    (Session.start .empty none .empty).run "-9223372036854775808" =
      some (.ok (some (.int Int64.minValue)), .start .empty none .empty) ∧
    (Session.start .empty none .empty).run "9223372036854775808" =
      some (.error (.faulty ⟨.invalidLiteral .int "9223372036854775808",
        some ⟨⟨0, 19⟩, ⟨1, 1⟩⟩, []⟩), .start .empty none .empty) := by
  have forms := integers_read_back (.start .empty none .empty)
  let magnitude : SignedDigits :=
    ⟨[], "9223372036854775808".toList, .inl rfl, by simp, List.all_eq_true.mp rfl⟩
  have beyond (number : Int64) : number.toInt ≠ magnitude.value := by
    have value : magnitude.value = 9223372036854775808 := by decide
    have below := number.toInt_lt
    rw [value]
    omega
  have text : magnitude.text = "9223372036854775808" := by decide
  have refused := ((forms.1 magnitude).1 (by decide)).2.2 beyond
  rw [text] at refused
  exact ⟨(forms.2 Int64.minValue).2, refused⟩

/-- Zeros write zero, however many they are. -/
theorem SignedDigits.of_zeros {zeros : List Char} (some : zeros ≠ [])
    (all : ∀ char ∈ zeros, char = '0') :
    ∃ form : SignedDigits, form.sign = [] ∧ form.digits = zeros ∧ form.value = 0 := by
  have digits : Scan.IsDigits zeros := ⟨some, fun char member => by rw [all char member]; rfl⟩
  refine ⟨⟨[], zeros, .inl rfl, digits⟩, rfl, rfl, ?_⟩
  have nothing : Nat.ofDigitChars 10 zeros 0 = 0 := by
    clear some digits
    induction zeros with
    | nil => rfl
    | cons zero zeros induction =>
        rw [all zero List.mem_cons_self]
        exact induction fun char member => all char (List.mem_cons_of_mem _ member)
  rw [value, nothing]
  rfl

/-- As many zeros as spans do not reach over are not run. -/
theorem oversized_zero_does_not_run :
    ∃ form : SignedDigits, form.sign = [] ∧ form.digits = List.replicate UInt32.size '0' ∧
      form.value = (0 : Int64).toInt ∧ ∃ error, error.code = .sourceTooLarge ∧
        (Session.start .empty none .empty).run form.text =
          some (.error (.unreadable error), .start .empty none .empty) := by
  have some : List.replicate UInt32.size '0' ≠ [] := by
    rw [Ne, List.replicate_eq_nil_iff]
    decide
  obtain ⟨form, sign, digits, value⟩ :=
    SignedDigits.of_zeros some fun _ member => List.eq_of_mem_replicate member
  refine ⟨form, sign, digits, value, form.run_beyond _ ?_⟩
  rw [SignedDigits.text, String.toList_ofList, sign, digits, List.nil_append,
    Text.byte_size_replicate]
  decide

end Reckon
