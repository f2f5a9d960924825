import Mathlib.Data.Set.Insert
import Reckon.Proofs.Evaluation.Limits
import Reckon.Proofs.Evaluation.Recursion

/-!
What an evaluation can reach. It looks up the names that the tree reads and calls, and those that
the bodies of the callables found there read and call, and so on. Scopes that say the same about all
these names give the same outcome, however they differ in others: binding parameters on top keeps
the agreement, and it takes callables away on both sides alike.
-/

namespace Reckon

namespace Tree

/-- The name that a tree reads or calls itself, whatever the trees inside do. -/
def ownMention? : Production → List (Piece Tree) → Option String
  | .atom, [.tree inner] => inner.name?
  | .call, .tree callee :: _ => callee.name?
  | _, _ => none

mutual

/-- The names that atoms and calls in the tree read and call. -/
def mentionsInside : Tree → List String
  | .node production pieces _ => (ownMention? production pieces).toList ++ mentionsAmong pieces
termination_by structural tree => tree

def mentionsAmong : List (Piece Tree) → List String
  | [] => []
  | .token _ :: rest => mentionsAmong rest
  | .tree tree :: rest => mentionsInside tree ++ mentionsAmong rest
termination_by structural pieces => pieces

end

/-- The names that the tree reads and calls. -/
def mentions (tree : Tree) : List String := tree.name?.toList ++ tree.mentionsInside

theorem mentions_among_of_member {inner : Tree} {pieces : List (Piece Tree)} {name : String}
    (member : .tree inner ∈ pieces) (inside : name ∈ inner.mentionsInside) :
    name ∈ mentionsAmong pieces := by
  induction pieces with
  | nil => cases member
  | cons piece pieces induction =>
      rcases List.mem_cons.mp member with rfl | later
      · exact List.mem_append_left _ inside
      · cases piece with
        | token text => exact induction later
        | tree first => exact List.mem_append_right _ (induction later)

theorem mentions_inside_of_part {inner tree : Tree} {name : String} (part : inner.PartOf tree)
    (inside : name ∈ inner.mentionsInside) : name ∈ tree.mentionsInside := by
  induction part with
  | whole => exact inside
  | inside member _ induction =>
      exact List.mem_append_right _ (mentions_among_of_member member induction)

/-- Every name that the tree reads or calls is listed. -/
theorem mem_mentions {tree : Tree} {name : String} (mentions : tree.Mentions name) :
    name ∈ tree.mentions := by
  rcases mentions with
    (itself | ⟨identifier, place, part, named⟩) | ⟨place, callee, rest, part, named⟩
  · exact List.mem_append_left _ (Option.mem_toList.mpr itself)
  · apply List.mem_append_right
    apply mentions_inside_of_part part
    exact List.mem_append_left _ (Option.mem_toList.mpr named)
  · apply List.mem_append_right
    apply mentions_inside_of_part part
    exact List.mem_append_left _ (Option.mem_toList.mpr named)

end Tree

namespace Scope

/-- The two scopes say the same about each of the names. -/
structure AgreeOn (reached : Set String) (scope other : Scope) : Prop where
  values : ∀ name ∈ reached, scope.value? name = other.value? name
  callables : ∀ name ∈ reached, scope.callable? name = other.callable? name

/-- With a callable, the names hold all that its body reads and calls. -/
def ClosedUnder (scope : Scope) (reached : Set String) : Prop :=
  ∀ name ∈ reached, ∀ callable, scope.callable? name = some callable →
    ∀ inner, callable.body.Mentions inner → inner ∈ reached

/-- The tree comes to the same in both scopes, with every limit and however deep calls are followed.
Without a limit the deeper of two evaluations may be the only one that is followed to its end; where
both are, or where there is a value, they are the same as well. -/
structure SameFor (tree : Tree) (scope other : Scope) : Prop where
  followed : ∀ depth, Evaluation.within depth scope tree = Evaluation.within depth other tree
  limited : ∀ limit, tree.evaluate scope (.start (some limit)) =
    tree.evaluate other (.start (some limit))
  unlimited : ∀ ended ended', tree.evaluate scope (.start none) = some ended →
    tree.evaluate other (.start none) = some ended' → ended = ended'
  returned : ∀ value, tree.evaluate scope (.start none) = some (.ok value, .start none) ↔
    tree.evaluate other (.start none) = some (.ok value, .start none)

variable {scope other : Scope} {reached : Set String}

theorem AgreeOn.symm (agree : scope.AgreeOn reached other) : other.AgreeOn reached scope where
  values name member := (agree.values name member).symm
  callables name member := (agree.callables name member).symm

theorem AgreeOn.bind (agree : scope.AgreeOn reached other) (given : List (String × Value)) :
    (scope.bind given).AgreeOn reached (other.bind given) where
  values name member := by
    rw [bind_value?, bind_value?, agree.values name member]
  callables name member := by
    rw [bind_callable?, bind_callable?, agree.callables name member]

/-- Binding only takes callables away. -/
theorem ClosedUnder.bind (closed : scope.ClosedUnder reached) (given : List (String × Value)) :
    (scope.bind given).ClosedUnder reached :=
  fun name member callable found => closed name member callable (callable_of_bind found)

theorem ClosedUnder.of_agree (closed : scope.ClosedUnder reached)
    (agree : scope.AgreeOn reached other) : other.ClosedUnder reached := by
  intro name member callable found
  rw [← agree.callables name member] at found
  exact closed name member callable found

theorem names_beside_of_agree (agree : scope.AgreeOn reached other) {tree : Tree}
    (mentioned : ∀ name, tree.Mentions name → name ∈ reached) :
    scope.names.Beside tree.Mentions other.names where
  values name mentions := agree.values name (mentioned name mentions)
  callables name mentions := by
    have same := agree.callables name (mentioned name mentions)
    change Option.Rel _ (scope.callable? name) (other.callable? name)
    rw [same]
    exact (Names.beside_itself other.names fun _ => True).callables name trivial

theorem agree_on_define_variable {name : String} (outside : name ∉ reached) (value : Value) :
    scope.AgreeOn reached (scope.defineVariable name value) where
  values found member := by
    rw [define_variable_value?, if_neg (ne_of_mem_of_not_mem member outside).symm]
  callables found member := by
    rw [define_variable_callable?, if_neg (ne_of_mem_of_not_mem member outside).symm]

theorem agree_on_define_callable {callable : Callable} (outside : callable.name ∉ reached) :
    scope.AgreeOn reached (scope.defineCallable callable) where
  values found member := by
    rw [define_callable_value?, if_neg (ne_of_mem_of_not_mem member outside).symm]
  callables found member := by
    rw [define_callable_callable?, if_neg (ne_of_mem_of_not_mem member outside).symm]

/-- A scope with a variable and a callable of one parameter. -/
def adding (body : Tree) : Scope :=
  (empty.defineVariable "y" (.int 1)).defineCallable ⟨"f", .int, [⟨"a", .int⟩], body, .start⟩

theorem adding_callable? {body : Tree} {name : String} {callable : Callable}
    (found : (adding body).callable? name = some callable) : callable.body = body := by
  rw [adding, define_callable_callable?, define_variable_callable?, empty_callable?, ite_self]
    at found
  split at found
  · cases found
    rfl
  · cases found

end Scope

namespace Evaluation

variable {scope other : Scope} {tree : Tree} {reached : Set String}

/-- Whatever calls are under way, the same comes of the tree in scopes that agree on what it
reaches. -/
theorem within_eq_of_agree (depth : Nat) (mentioned : ∀ name, tree.Mentions name → name ∈ reached)
    (closed : scope.ClosedUnder reached) (agree : scope.AgreeOn reached other) :
    within depth scope tree = within depth other tree := by
  -- on the depth: the scopes of a body agree as those of the call do, its parameters in addition
  induction depth generalizing scope other tree with
  | zero => rfl
  | succ depth induction =>
      have parallel := (equal_congruent fun _ => True).parallel
      rw [within_succ, within_succ]
      apply of_tree_beside parallel (Scope.names_beside_of_agree agree mentioned)
        (Tree.beside_itself fun _ _ => ⟨rfl, trivial⟩)
      rintro name place _ callable callable' called ⟨rfl, _⟩ found found' converted converted' told
      have member : name ∈ reached := mentioned name (.inr ⟨place, called⟩)
      have same : some callable = some callable' := by
        rw [← found, ← found']
        exact agree.callables name member
      cases same
      apply congrArg (during ⟨name, place⟩)
      apply enter_converted_beside parallel rfl ⟨rfl, trivial⟩ told
      intro given
      exact induction (closed name member callable found) (closed.bind given) (agree.bind given)

theorem returned_of_agree (mentioned : ∀ name, tree.Mentions name → name ∈ reached)
    (closed : scope.ClosedUnder reached) (agree : scope.AgreeOn reached other) {value : Value}
    (returned : tree.evaluate scope (.start none) = some (.ok value, .start none)) :
    tree.evaluate other (.start none) = some (.ok value, .start none) := by
  -- no more calls are nested than there are callables, so it makes no difference how many these are
  have ran : within (allowance scope (.start none)) other tree (.start none) =
      some (.ok value, .start none) := by
    rw [← within_eq_of_agree _ mentioned closed agree]
    exact returned
  have wide := @size_lt_allowance other none fun _ limited => nomatch limited
  have carried : CarriesOver (fun _ => True) (.start none) (.start none)
      (within (allowance scope (.start none)) other tree)
      (watched (fun _ => True) (fun _ => none) (allowance other (.start none)) other tree) :=
    orderly_carries_over (orderly_start ⟨_, value, _, ran⟩) (fun _ _ => trivial) rfl (.inr wide)
      (.inl (LimitLe.refl none))
  rw [watched_eq_within] at carried
  obtain ⟨_, ⟨fault, same, _⟩ | same⟩ := carried _ _ ran
  · cases same
  · exact same

theorem same_for_of_agree (mentioned : ∀ name, tree.Mentions name → name ∈ reached)
    (closed : scope.ClosedUnder reached) (agree : scope.AgreeOn reached other) :
    scope.SameFor tree other where
  followed depth := within_eq_of_agree depth mentioned closed agree
  limited limit := by
    rw [evaluate_start, evaluate_start, within_eq_of_agree _ mentioned closed agree]
  unlimited := by
    rintro ⟨outcome, next⟩ ⟨outcome', next'⟩ ran ran'
    rw [Tree.evaluate, within_eq_of_agree _ mentioned closed agree] at ran
    have deep := within_deeper (Nat.le_max_left _ (allowance other (.start none))) ran
    rw [within_deeper (Nat.le_max_right _ _) ran'] at deep
    exact (Option.some.inj deep).symm
  returned value :=
    ⟨returned_of_agree mentioned closed agree,
      returned_of_agree mentioned (closed.of_agree agree) agree.symm⟩

/-- A tree comes to the same in two scopes that agree on a set of names, if the set has every name
that the tree reads or calls and, for every callable found there, every name that its body reads or
calls. A name that is not in the set can be given any value or callable, whatever it stood for. -/
theorem evaluation_sees_reached_names_only
    (mentioned : ∀ name, tree.Mentions name → name ∈ reached)
    (closed : scope.ClosedUnder reached) (agree : scope.AgreeOn reached other) :
    scope.SameFor tree other ∧
    (∀ name value, name ∉ reached → scope.SameFor tree (scope.defineVariable name value)) ∧
    ∀ callable : Callable, callable.name ∉ reached →
      scope.SameFor tree (scope.defineCallable callable) :=
  ⟨same_for_of_agree mentioned closed agree,
    fun _ value outside =>
      same_for_of_agree mentioned closed (Scope.agree_on_define_variable outside value),
    fun _ outside => same_for_of_agree mentioned closed (Scope.agree_on_define_callable outside)⟩

/-- A sum of a parameter and a variable, in a call. What another name stands for makes no
difference, while the name of the argument is none of those that the call itself reads. -/
theorem sum_sees_reached_names_only :
    ∃ body tree, parse "a + y" = .ok [body] ∧ parse "f(a = 2)" = .ok [tree] ∧
      tree.mentions = ["f"] ∧ body.mentions = ["a", "y"] ∧
      (∀ name, tree.Mentions name → name ∈ ({"f", "a", "y"} : Set String)) ∧
      (Scope.adding body).ClosedUnder {"f", "a", "y"} ∧
      (Scope.adding body).AgreeOn {"f", "a", "y"}
        ((Scope.adding body).defineVariable "z" (.int 5)) ∧
      ((tree.evaluate (.adding body) (.start none)).any fun ran => ran.1.toBool) = true ∧
      (Scope.adding body).SameFor tree ((Scope.adding body).defineVariable "z" (.int 5)) := by
  obtain ⟨body, tree, bodyRead, treeRead, called, read, valued⟩ : ∃ body tree,
      parse "a + y" = .ok [body] ∧ parse "f(a = 2)" = .ok [tree] ∧ tree.mentions = ["f"] ∧
      body.mentions = ["a", "y"] ∧
      ((tree.evaluate (.adding body) (.start none)).any fun ran => ran.1.toBool) = true := by
    refine ⟨_, _, rfl, rfl, ?_, ?_, ?_⟩
    all_goals decide +kernel
  have mentioned : ∀ name, tree.Mentions name → name ∈ ({"f", "a", "y"} : Set String) := by
    intro name mentions
    have listed := Tree.mem_mentions mentions
    rw [called, List.mem_singleton] at listed
    exact .inl listed
  have closed : (Scope.adding body).ClosedUnder {"f", "a", "y"} := by
    intro name _ callable found inner mentions
    rw [Scope.adding_callable? found] at mentions
    have listed := Tree.mem_mentions mentions
    rw [read, List.mem_pair] at listed
    exact .inr listed
  have outside : "z" ∉ ({"f", "a", "y"} : Set String) := by simp
  have agree := @Scope.agree_on_define_variable (.adding body) _ "z" outside (.int 5)
  exact ⟨body, tree, bodyRead, treeRead, called, read, mentioned, closed, agree, valued,
    (evaluation_sees_reached_names_only mentioned closed agree).1⟩

end Evaluation

end Reckon
