import Reckon.Proofs.Grammar.Progress

/-!
How deeply readers nest their calls does not matter to what they return. A reader that may go deeper
ends as before wherever it has ended, so all that may go deep enough are the same one. It is the
reader that its body gives with the readers of the parts, none of which are cut off.
-/

namespace Reckon

namespace Descent

/-- Where the first reader ends the second ends alike. -/
def Extends {α : Type} (first second : Descent α) : Prop :=
  ∀ ahead outcome, first ahead = some outcome → second ahead = some outcome

section

variable {α β : Type} {first second : Descent α}

theorem Extends.refl (reader : Descent α) : Extends reader reader := fun _ _ same => same

theorem Extends.bind {next later : α → Descent β} (further : Extends first second)
    (also : ∀ result, Extends (next result) (later result)) :
    Extends (first >>= next) (second >>= later) := by
  intro ahead outcome ended
  rw [bind_apply, Option.bind_eq_some_iff] at ended
  obtain ⟨⟨middle, rest⟩, begun, ended⟩ := ended
  rw [bind_apply, further ahead _ begun]
  cases middle with
  | error error => exact ended
  | ok result => exact also result rest outcome ended

theorem Extends.map (further : Extends first second) (function : α → β) :
    Extends (function <$> first) (function <$> second) := by
  rw [map_eq_pure_bind, map_eq_pure_bind]
  exact further.bind fun _ => .refl _

end

section

variable {read others : {β : Type} → Construct β → Descent β}

/-- A reader whose parts are read by further readers goes further itself. -/
theorem body_extends
    (further : ∀ {β : Type} (part : Construct β), Extends (read part) (others part))
    {α : Type} (construct : Construct α) :
    Extends (body read construct) (body others construct) := by
  cases construct with
  | identifier | literal => exact .refl _
  | chain level =>
      rw [body, body]
      exact (further _).bind fun first => further _
  | chainRest level earlier last =>
      rw [body, body]
      apply (Extends.refl current).bind
      intro token
      split
      · apply (Extends.refl advance).bind
        exact fun operator => (further _).bind fun next => further _
      · exact .refl _
  | operand level =>
      cases level with
      | sum => exact further (.chain .product)
      | product => exact further .factor
  | factor =>
      rw [body, body]
      apply (further .atom).bind
      intro base
      apply (Extends.refl (eat .caret)).bind
      intro caret?
      cases caret? with
      | none => exact .refl _
      | some caret => exact (further .factor).bind fun exponent => .refl _
  | atom =>
      rw [body, body]
      apply (Extends.refl current).bind
      intro token
      split
      · apply (Extends.refl advance).bind
        exact fun opening => (further _).bind fun inner => .refl _
      · apply (Extends.refl following).bind
        intro next
        split
        · exact (further .call).map _
        · exact (further .identifier).map _
      · exact (further .literal).map _
      · exact (further .literal).map _
      · apply (Extends.refl following).bind
        intro next
        split
        · exact (further .literal).map _
        · exact .refl _
      · apply (Extends.refl following).bind
        intro next
        split
        · exact (further .literal).map _
        · exact .refl _
      · exact .refl _
  | call =>
      rw [body, body]
      apply (Extends.refl name).bind
      intro callee
      apply (Extends.refl (expect .leftParen)).bind
      exact fun opening => (further .argumentList).bind fun list => .refl _
  | argumentList =>
      rw [body, body]
      apply (Extends.refl current).bind
      exact fun start => (further _).bind fun items => .refl _
  | series listing =>
      rw [body, body]
      apply (Extends.refl current).bind
      intro token
      split
      · exact .refl _
      · apply (further (.item listing)).bind
        rintro ⟨name, value⟩
        apply (Extends.refl (eat .comma)).bind
        intro comma?
        cases comma? with
        | none => exact .refl _
        | some comma => exact (further (.series listing)).bind fun items => .refl _
  | item listing =>
      rw [body, body]
      apply (Extends.refl name).bind
      intro name
      apply (Extends.refl (expect listing.sign)).bind
      exact fun sign => (further _).bind fun value => .refl _
  | itemValue listing =>
      cases listing with
      | arguments => exact further (.chain .sum)
      | parameters => exact further .identifier
  | parameterList =>
      rw [body, body]
      apply (Extends.refl current).bind
      exact fun start => (further _).bind fun items => .refl _
  | signature =>
      rw [body, body]
      apply (Extends.refl name).bind
      intro kind
      apply (Extends.refl (expect .leftParen)).bind
      exact fun opening => (further .parameterList).bind fun list => .refl _
  | headed head => exact (further (.chain .sum)).map head.finish
  | echo =>
      rw [body, body]
      exact (Extends.refl (expect .echo)).bind fun keyword => further _
  | assignment =>
      rw [body, body]
      apply (Extends.refl name).bind
      intro name
      exact (Extends.refl (expect .equals)).bind fun sign => further _
  | definition =>
      rw [body, body]
      apply (Extends.refl name).bind
      intro name
      apply (Extends.refl (expect .colon)).bind
      intro colon
      apply (Extends.refl current).bind
      intro token
      apply (Extends.refl following).bind
      intro next
      split
      · exact (Extends.refl advance).bind fun sign => further _
      · apply (further .signature).bind
        intro signature
        exact (Extends.refl (expect .equals)).bind fun sign => further _
      · apply (Extends.refl Descent.name).bind
        intro kind
        exact (Extends.refl advance).bind fun sign => further _
      · exact .refl _
      · exact .refl _
  | statement =>
      rw [body, body]
      apply (Extends.refl current).bind
      intro token
      apply (Extends.refl following).bind
      intro next
      split
      · exact further .echo
      · exact further .definition
      · exact further .assignment
      · exact further (.chain .sum)
  | program =>
      have others : ∀ tree, Extends (read .program >>= fun trees => pure (tree :: trees))
          (others .program >>= fun trees => pure (tree :: trees)) :=
        fun tree => (further .program).bind fun trees => .refl _
      rw [body, body]
      apply (Extends.refl current).bind
      intro token
      split
      · exact .refl _
      · exact (Extends.refl advance).bind fun newline => others _
      · apply (further .statement).bind
        intro tree
        apply (Extends.refl current).bind
        intro found
        split
        · exact others tree
        · exact others tree
        · exact .refl _

end

theorem within_succ_extends (depth : Nat) {α : Type} (construct : Construct α) :
    Extends (within depth construct) (within (depth + 1) construct) := by
  induction depth generalizing α construct with
  | zero =>
      intro ahead outcome never
      cases never
  | succ depth induction => exact body_extends (fun part => induction part) construct

section

variable {α : Type} {construct : Construct α} {ahead : List Token} {depth : Nat}

theorem within_extends {deeper : Nat} (less : depth ≤ deeper) :
    Extends (within depth construct) (within deeper construct) := by
  induction less with
  | refl => exact .refl _
  | @step deeper _ induction =>
      exact fun ahead outcome ended =>
        within_succ_extends deeper construct ahead outcome (induction ahead outcome ended)

theorem within_ends (deep : construct.need ahead ≤ depth) :
    ∃ outcome, within depth construct ahead = some outcome := by
  rcases ends_within deep with ⟨result, rest, ended, _⟩ | ⟨error, rest, ended, _⟩
  · exact ⟨_, ended⟩
  · exact ⟨_, ended⟩

theorem read_apply (construct : Construct α) (ahead : List Token) :
    read construct ahead = within (enough ahead) construct ahead := rfl

theorem read_ends (construct : Construct α) (ahead : List Token) :
    ∃ outcome, read construct ahead = some outcome := by
  rw [read_apply]
  exact within_ends (construct.need_le_enough ahead)

theorem within_extends_read : Extends (within depth construct) (read construct) := by
  intro ahead outcome ended
  obtain ⟨other, same⟩ := read_ends construct ahead
  rcases Nat.le_total depth (enough ahead) with shallow | deep
  · exact within_extends shallow ahead outcome ended
  · rw [within_extends deep ahead other same] at ended
    rw [same, ended]

/-- A reader that is allowed what it needs is not cut off. -/
theorem within_eq_read (deep : construct.need ahead ≤ depth) :
    within depth construct ahead = read construct ahead := by
  obtain ⟨outcome, ended⟩ := within_ends deep
  rw [ended, within_extends_read ahead outcome ended]

theorem ends_read : Ends read construct ahead := by
  have ends := ends_within (construct.need_le_enough ahead)
  rw [Ends, Goes, Halts, ← read_apply] at ends
  exact ends

/-- The readers are what their bodies give with all readers for the parts. -/
theorem read_eq (construct : Construct α) : read construct = body read construct := by
  funext ahead
  obtain ⟨outcome, ended⟩ := read_ends construct ahead
  have begun : body (within (10 * ahead.length + 9)) construct ahead = some outcome := ended
  rw [ended, body_extends (fun part => within_extends_read) construct ahead outcome begun]

end

end Descent

end Reckon
