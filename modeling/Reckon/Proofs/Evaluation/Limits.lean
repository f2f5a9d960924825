import Reckon.Proofs.Evaluation.Termination
import Reckon.Proofs.Scope.Bindings

/-!
What a limit on calls does to an evaluation. It cuts the evaluation off at a call, or it makes no
difference: nothing else looks at how many calls there may be.
-/

namespace Reckon

/-- From the tree one gets to a call of the name at the place: it stands in the tree, or one gets to
it from the body of a callable that the tree calls. -/
inductive Scope.LeadsTo (scope : Scope) : Tree → String → Location → Prop where
  | here {tree : Tree} {name : String} {place : Location} (called : tree.CallsAt name place) :
      LeadsTo scope tree name place
  | through {tree : Tree} {other name : String} {otherPlace place : Location} {callable : Callable}
      (called : tree.CallsAt other otherPlace) (found : scope.callable? other = some callable)
      (further : LeadsTo scope callable.body name place) : LeadsTo scope tree name place

theorem Scope.LeadsTo.of_bind {scope : Scope} {bindings : List (String × Value)} {tree : Tree}
    {name : String} {place : Location} (leads : (scope.bind bindings).LeadsTo tree name place) :
    scope.LeadsTo tree name place := by
  induction leads with
  | here called => exact .here called
  | through called found _ induction => exact .through called (callable_of_bind found) induction

/-- If the fault refuses a call for the limit, it names a callable and is located at a call of it
that one gets to from the tree. -/
def Fault.RefusesUnder (limit? : Option Nat) (scope : Scope) (tree : Tree) (fault : Fault) : Prop :=
  ∀ name limit, fault.cause = .recursionLimit name limit →
    limit? = some limit ∧ (scope.callable? name).isSome = true ∧
      ∃ place, fault.location? = some place ∧ scope.LeadsTo tree name place

namespace Evaluation

/-- What is kept and what is said of faults extends to evaluations put together, if it is said of
the faults the rules raise. -/
theorem ends_congruent {keeps : Calls → Prop} {fails : Fault → Prop} {places : Location → Prop}
    (raised : ∀ fault : Fault, fault.RaisedAmong places → fails fault) :
    Congruent (fun evaluation _ => Ends keeps evaluation (fun _ => True) fails) places where
  pure _ := Ends.pure trivial
  throw raisedHere := Ends.throw (raised _ raisedHere)
  bind first rest := first.bind fun result _ => rest result

/-- Every refusal is that of a call one gets to. -/
theorem within_refusals (depth : Nat) (scope : Scope) (tree : Tree) (limit? : Option Nat) :
    Ends (fun calls => calls.limit? = limit?) (within depth scope tree) (fun _ => True)
      (Fault.RefusesUnder limit? scope tree) := by
  induction depth generalizing scope tree with
  | zero =>
      intro calls outcome next kept ran
      cases ran
  | succ depth induction =>
      have raised : ∀ fault : Fault, fault.RaisedAmong (fun _ => True) →
          fault.RefusesUnder limit? scope tree := by
        intro fault raised name limit same
        exact absurd same (raised.unbounded name limit)
      apply of_tree_holds (ends_congruent raised) fun _ _ => trivial
      intro name place callable called found converted ends
      apply during_ends
      · exact fun _ kept => kept
      · exact fun _ kept => kept
      · apply enter_converted_holds (ends_congruent raised) trivial ends
        intro bindings
        apply (induction (scope.bind bindings) callable.body).weaken
        intro fault refuses other limit same
        -- what is a callable behind the bindings is one in the scope they were added to
        obtain ⟨limited, foundInside, at_, located, leads⟩ := refuses other limit same
        obtain ⟨inner, foundInner⟩ := Option.isSome_iff_exists.mp foundInside
        refine ⟨limited, ?_, at_, located, .through called found leads.of_bind⟩
        rw [Scope.callable_of_bind foundInner]
        rfl
      · intro calls limit kept limited other most same
        cases same
        refine ⟨kept.symm.trans limited, ?_, place, rfl, .here called⟩
        exact Option.isSome_iff_exists.mpr ⟨callable, found⟩
      · exact fun _ _ refuses => refuses

/-- The evaluation ended because a call was refused. -/
def IsCutOff (outcome : Except Fault Value) : Prop :=
  ∃ fault, outcome = .error fault ∧ fault.code = .recursionLimit

theorem cause_of_code {fault : Fault} (code : fault.code = .recursionLimit) :
    ∃ name limit, fault.cause = .recursionLimit name limit := by
  obtain ⟨cause, location?, notes⟩ := fault
  cases cause with
  | recursionLimit name limit => exact ⟨name, limit, rfl⟩
  | _ => cases code

/-- An evaluation that no call cuts off comes to the same if calls are followed deeper and more of
them are admitted. -/
theorem within_of_not_cut_off {depth deeper : Nat} {scope : Scope} {tree : Tree}
    {limit? limits? : Option Nat} {outcome : Except Fault Value} {next : Calls}
    (limits : LimitLe limit? limits?) (depths : depth ≤ deeper)
    (ran : within depth scope tree (.start limit?) = some (outcome, next))
    (uncut : ¬IsCutOff outcome) :
    within deeper scope tree (.start limits?) = some (outcome, .start limits?) := by
  have carried : CarriesOver (fun fault => fault.code = .recursionLimit) (.start limit?)
      (.start limits?) (within depth scope tree) (within deeper scope tree) :=
    within_carries_over (fun _ _ => id) rfl limits (.inl fun _ _ => rfl) depths
  obtain ⟨_, cut | same⟩ := carried outcome next ran
  · exact absurd cut uncut
  · exact same

theorem evaluate_start (limit : Nat) (scope : Scope) (tree : Tree) :
    tree.evaluate scope (.start (some limit)) =
      within (limit + 1) scope tree (.start (some limit)) := rfl

/-- Of two limits the greater one gives what the smaller one gives, unless that one cuts the
evaluation off. If the greater one cuts it off, so does the smaller one, at a call of a callable
that one gets to, and the fault tells that name, that limit and that place. An evaluation without a
limit that ends, however deep it has to be followed, comes to what a limit gives that does not cut
it off. -/
theorem limit_only_cuts_off (scope : Scope) (tree : Tree) {least most : Nat}
    (ordered : least ≤ most) :
    ∃ low high, tree.evaluate scope (.start (some least)) = some (low, .start (some least)) ∧
      tree.evaluate scope (.start (some most)) = some (high, .start (some most)) ∧
      (¬IsCutOff low → high = low) ∧
      (IsCutOff high → ∃ fault name place, low = .error fault ∧
        fault.cause = .recursionLimit name least ∧ fault.location? = some place ∧
        (scope.callable? name).isSome = true ∧ scope.LeadsTo tree name place) ∧
      ∀ depth outcome next, within depth scope tree (.start none) = some (outcome, next) →
        ¬IsCutOff low → outcome = low := by
  obtain ⟨low, lowEnded⟩ := @evaluate_ends (.start (some least)) least scope tree rfl
  obtain ⟨high, highEnded⟩ := @evaluate_ends (.start (some most)) most scope tree rfl
  have limits : LimitLe (some least) (some most) := by
    rintro limit ⟨⟩
    exact ⟨least, rfl, ordered⟩
  have same : ¬IsCutOff low → high = low := by
    intro uncut
    rw [evaluate_start] at lowEnded highEnded
    have deeper : least + 1 ≤ most + 1 := Nat.succ_le_succ ordered
    have carried := within_of_not_cut_off limits deeper lowEnded uncut
    rw [highEnded] at carried
    cases carried
    rfl
  refine ⟨low, high, lowEnded, highEnded, same, ?_, ?_⟩
  · intro cut
    have lowCut : IsCutOff low := by
      by_contra uncut
      rw [same uncut] at cut
      exact uncut cut
    obtain ⟨fault, rfl, code⟩ := lowCut
    obtain ⟨name, limit, cause⟩ := cause_of_code code
    have refusals := within_refusals _ scope tree (some least) _ _ _ rfl lowEnded
    obtain ⟨limited, found, place, located, leads⟩ := refusals.2.2 fault rfl name limit cause
    cases limited
    exact ⟨fault, name, place, rfl, cause, located, found, leads⟩
  · intro depth outcome next ran uncut
    have unlimited : LimitLe (some least) none := by
      rintro limit ⟨⟩
    have deep := within_of_not_cut_off unlimited (Nat.le_max_right depth _) lowEnded uncut
    rw [within_deeper (Nat.le_max_left depth _) ran] at deep
    cases deep
    rfl

/-- Calls that go on for ever are cut off under both limits. -/
theorem limit_cuts_off_endless_calls :
    1 ≤ 3 ∧ ∃ fault name place,
      (Tree.bareCall "f" .unknown).evaluate .endless (.start (some 1)) =
        some (.error fault, .start (some 1)) ∧
      fault.cause = .recursionLimit name 1 ∧ fault.location? = some place ∧
      Scope.endless.LeadsTo (.bareCall "f" .unknown) name place := by
  have ordered : 1 ≤ 3 := by decide
  have check : (((Tree.bareCall "f" .unknown).evaluate .endless (.start (some 3))).any fun ran =>
      match ran.1 with
      | .ok _ => false
      | .error fault => fault.code = .recursionLimit) = true := by decide +kernel
  obtain ⟨low, high, lowEnded, highEnded, _, cut, _⟩ :=
    limit_only_cuts_off .endless (.bareCall "f" .unknown) ordered
  rw [highEnded] at check
  have highCut : IsCutOff high := by
    cases high with
    | ok value => cases check
    | error fault => exact ⟨fault, rfl, of_decide_eq_true check⟩
  obtain ⟨fault, name, place, rfl, cause, located, _, leads⟩ := cut highCut
  exact ⟨ordered, fault, name, place, lowEnded, cause, located, leads⟩

end Evaluation

end Reckon
