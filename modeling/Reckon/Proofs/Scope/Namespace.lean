import Mathlib.Logic.Function.Basic
import Reckon.Proofs.Scope.Bindings

/-!
One namespace. A scope keeps values and callables in two tables, and yet behaves as one map from
names to what they stand for: whatever is done with any number of scopes and their copies, each
answers as the map does, and no name comes to be in both tables.
-/

namespace Reckon

/-- What a name stands for. -/
inductive Referent where
  | value (value : Value)
  | callable (callable : Callable)

namespace Referent

def value? : Referent → Option Value
  | .value held => some held
  | .callable _ => none

def callable? : Referent → Option Callable
  | .value _ => none
  | .callable held => some held

end Referent

/-- A way of keeping what names stand for: what can be done with it and asked of it. -/
structure Keeper (σ : Type) where
  empty : σ
  defineVariable : σ → String → Value → σ
  defineCallable : σ → Callable → σ
  assign : σ → String → Value → Except AssignError σ
  value? : σ → String → Option Value
  callable? : σ → String → Option Callable
  defines : σ → String → Bool

/-- Something done with one of any number of scopes, or asked of it. -/
inductive Action where
  | create (number : Nat)
  | snapshot (source target : Nat)
  | defineVariable (number : Nat) (name : String) (value : Value)
  | defineCallable (number : Nat) (callable : Callable)
  | assign (number : Nat) (name : String) (value : Value)
  | lookup (number : Nat) (name : String)

inductive Answer where
  | done
  | refused (error : AssignError)
  | found (value? : Option Value) (callable? : Option Callable) (defined : Bool)

namespace Keeper

variable {σ : Type} (keeper : Keeper σ)

/-- Does one thing; an assignment that is refused changes nothing. -/
def step (scopes : Nat → σ) : Action → (Nat → σ) × Answer
  | .create number => (Function.update scopes number keeper.empty, .done)
  | .snapshot source target => (Function.update scopes target (scopes source), .done)
  | .defineVariable number name value =>
      (Function.update scopes number (keeper.defineVariable (scopes number) name value), .done)
  | .defineCallable number callable =>
      (Function.update scopes number (keeper.defineCallable (scopes number) callable), .done)
  | .assign number name value =>
      match keeper.assign (scopes number) name value with
      | .ok scope => (Function.update scopes number scope, .done)
      | .error error => (scopes, .refused error)
  | .lookup number name =>
      (scopes, .found (keeper.value? (scopes number) name) (keeper.callable? (scopes number) name)
        (keeper.defines (scopes number) name))

/-- Does one thing after the other, with all answers. -/
def run (scopes : Nat → σ) : List Action → (Nat → σ) × List Answer
  | [] => (scopes, [])
  | action :: rest =>
      let (between, answer) := keeper.step scopes action
      let (last, answers) := run between rest
      (last, answer :: answers)

/-- Does one thing after the other with scopes that are empty at first. -/
def fromEmpty (actions : List Action) : (Nat → σ) × List Answer :=
  keeper.run (fun _ => keeper.empty) actions

end Keeper

/-- One map from names to what they stand for. -/
abbrev Referents := String → Option Referent

namespace Referents

def value? (referents : Referents) (name : String) : Option Value :=
  (referents name).bind Referent.value?

def callable? (referents : Referents) (name : String) : Option Callable :=
  (referents name).bind Referent.callable?

/-- Lets a name stand for something and for nothing else. -/
def set (referents : Referents) (name : String) (referent : Referent) : Referents :=
  Function.update referents name (some referent)

/-- Exactly a name that stands for a value is assigned to. -/
def assign (referents : Referents) (name : String) (value : Value) :
    Except AssignError Referents :=
  match referents name with
  | some (.value _) => .ok (referents.set name (.value value))
  | some (.callable _) => .error .notAVariable
  | none => .error .undefined

def keeper : Keeper Referents where
  empty := fun _ => none
  defineVariable referents name value := referents.set name (.value value)
  defineCallable referents callable := referents.set callable.name (.callable callable)
  assign := assign
  value? := value?
  callable? := callable?
  defines referents name := (referents name).isSome

variable {referents : Referents} {name found : String} {referent : Referent}

theorem set_apply :
    referents.set name referent found =
      if name = found then some referent else referents found := by
  rw [set, Function.update_apply]
  simp only [eq_comm]

theorem set_value? : (referents.set name referent).value? found =
    if name = found then referent.value? else referents.value? found := by
  rw [value?, set_apply]
  split <;> rfl

theorem set_callable? : (referents.set name referent).callable? found =
    if name = found then referent.callable? else referents.callable? found := by
  rw [callable?, set_apply]
  split <;> rfl

/-- Every callable stands under its own name. -/
def Named (referents : Referents) : Prop :=
  ∀ name (callable : Callable), referents name = some (.callable callable) → callable.name = name

theorem Named.set (named : referents.Named)
    (fits : ∀ callable, referent = .callable callable → callable.name = name) :
    (referents.set name referent).Named := by
  intro found callable same
  rw [set_apply] at same
  split at same
  · next here =>
      rw [← here]
      exact fits callable (Option.some.inj same)
  · exact named found callable same

end Referents

namespace Scope

def keeper : Keeper Scope where
  empty := empty
  defineVariable := defineVariable
  defineCallable := defineCallable
  assign := assign
  value? := value?
  callable? := callable?
  defines := defines

/-- No name is in both tables, and every callable is kept under its own name. -/
structure OneNamespace (scope : Scope) : Prop where
  once : ∀ name, ¬(name ∈ scope.values ∧ name ∈ scope.callables)
  named : ∀ name (callable : Callable), scope.callables[name]? = some callable →
    callable.name = name

/-- The two tables together are the map. -/
structure Represents (scope : Scope) (referents : Referents) : Prop where
  values : ∀ name, scope.value? name = referents.value? name
  callables : ∀ name, scope.callable? name = referents.callable? name
  named : referents.Named

variable {scope : Scope} {referents : Referents}

theorem empty_represents : empty.Represents Referents.keeper.empty where
  values _ := rfl
  callables _ := rfl
  named _ _ same := nomatch same

theorem define_variable_represents (represents : scope.Represents referents) (name : String)
    (value : Value) :
    (scope.defineVariable name value).Represents (referents.set name (.value value)) where
  values found := by
    rw [define_variable_value?, represents.values, Referents.set_value?]
    rfl
  callables found := by
    rw [define_variable_callable?, represents.callables, Referents.set_callable?]
    rfl
  named := represents.named.set fun _ same => nomatch same

theorem define_callable_represents (represents : scope.Represents referents)
    (callable : Callable) :
    (scope.defineCallable callable).Represents
      (referents.set callable.name (.callable callable)) where
  values found := by
    rw [define_callable_value?, represents.values, Referents.set_value?]
    rfl
  callables found := by
    rw [define_callable_callable?, represents.callables, Referents.set_callable?]
    rfl
  named := represents.named.set fun _ same => by cases same; rfl

theorem bound_of_represents (represents : scope.Represents referents) (name : String) :
    (referents name = none ∧ scope.value? name = none ∧ scope.callable? name = none) ∨
    (∃ value, referents name = some (.value value) ∧ scope.value? name = some value ∧
      scope.callable? name = none) ∨
    ∃ callable, referents name = some (.callable callable) ∧ scope.value? name = none ∧
      scope.callable? name = some callable := by
  rw [represents.values, represents.callables, Referents.value?, Referents.callable?]
  rcases referents name with _ | value | callable
  · exact .inl ⟨rfl, rfl, rfl⟩
  · exact .inr (.inl ⟨value, rfl, rfl, rfl⟩)
  · exact .inr (.inr ⟨callable, rfl, rfl, rfl⟩)

theorem assign_value_represents (represents : scope.Represents referents) {name : String}
    {value current : Value} {next : Scope} (bound : referents name = some (.value current))
    (assigned : scope.assign name value = .ok next) :
    next.Represents (referents.set name (.value value)) where
  values found := by
    rw [assign_value? assigned, represents.values, Referents.set_value?]
    rfl
  callables found := by
    rw [assign_callable? assigned, represents.callables, Referents.set_callable?]
    split
    · next here =>
        rw [← here, Referents.callable?, bound]
        rfl
    · rfl
  named := represents.named.set fun _ same => nomatch same

/-- An assignment is refused by both for one reason, or made by both. -/
theorem assign_represents (represents : scope.Represents referents) (name : String)
    (value : Value) :
    (∃ error, scope.assign name value = .error error ∧
      referents.assign name value = .error error) ∨
    ∃ next nextReferents, scope.assign name value = .ok next ∧
      referents.assign name value = .ok nextReferents ∧ next.Represents nextReferents := by
  rcases bound_of_represents represents name with
    ⟨stands, noValue, noCallable⟩ | ⟨_, stands, isValue, _⟩ | ⟨_, stands, noValue, isCallable⟩
  · left
    rw [assign_eq, noValue, noCallable, Referents.assign, stands]
    exact ⟨.undefined, rfl, rfl⟩
  · right
    obtain ⟨next, assigned, _⟩ := assign_of_value isValue value
    rw [Referents.assign, stands]
    exact ⟨next, _, assigned, rfl, assign_value_represents represents stands assigned⟩
  · left
    rw [assign_eq, noValue, isCallable, Referents.assign, stands]
    exact ⟨.notAVariable, rfl, rfl⟩

theorem defines_eq (scope : Scope) (name : String) :
    scope.defines name = ((scope.value? name).isSome || (scope.callable? name).isSome) := by
  rw [defines, Std.TreeMap.contains_eq_isSome_getElem?, Std.TreeMap.contains_eq_isSome_getElem?]
  rfl

theorem one_namespace_of_represents (represents : scope.Represents referents) :
    scope.OneNamespace where
  once name := by
    rw [Std.TreeMap.mem_iff_isSome_getElem?, Std.TreeMap.mem_iff_isSome_getElem?]
    change ¬((scope.value? name).isSome ∧ (scope.callable? name).isSome)
    rcases bound_of_represents represents name with
      ⟨_, value, _⟩ | ⟨_, _, _, callable⟩ | ⟨_, _, value, _⟩ <;> simp [*]
  named name callable found := by
    change scope.callable? name = some callable at found
    rcases bound_of_represents represents name with
      ⟨_, _, none⟩ | ⟨_, _, _, none⟩ | ⟨_, stands, _, same⟩
    · exact nomatch none.symm.trans found
    · exact nomatch none.symm.trans found
    · cases same.symm.trans found
      exact represents.named name callable stands

/-- What the tables hold for a name, as one referent. -/
def merged (scope : Scope) : Referents := fun name =>
  ((scope.value? name).map .value).orElse fun _ => (scope.callable? name).map .callable

/-- Two tables are one namespace exactly if there is a map that they are together. -/
theorem one_namespace_iff : scope.OneNamespace ↔ ∃ referents, scope.Represents referents := by
  refine ⟨fun apart => ⟨scope.merged, ?_⟩, fun ⟨_, represents⟩ =>
    one_namespace_of_represents represents⟩
  have once : ∀ name, scope.value? name = none ∨ scope.callable? name = none := by
    intro name
    have notBoth := apart.once name
    rw [Std.TreeMap.mem_iff_isSome_getElem?, Std.TreeMap.mem_iff_isSome_getElem?, not_and_or,
      Bool.not_eq_true, Bool.not_eq_true, Option.isSome_eq_false_iff, Option.isSome_eq_false_iff,
      Option.isNone_iff_eq_none, Option.isNone_iff_eq_none] at notBoth
    exact notBoth
  constructor
  · intro name
    rw [Referents.value?, merged]
    cases scope.value? name with
    | some value => rfl
    | none => cases scope.callable? name <;> rfl
  · intro name
    rw [Referents.callable?, merged]
    rcases once name with none | none <;> rw [none]
    · cases scope.callable? name <;> rfl
    · cases scope.value? name <;> rfl
  · intro name callable same
    apply apart.named name callable
    change scope.callable? name = some callable
    rw [merged] at same
    cases value : scope.value? name with
    | some value => simp [value] at same
    | none => simpa [value] using same

theorem defines_of_represents (represents : scope.Represents referents) (name : String) :
    scope.defines name = (referents name).isSome := by
  rw [defines_eq]
  rcases bound_of_represents represents name with
    ⟨stands, value, callable⟩ | ⟨_, stands, value, callable⟩ | ⟨_, stands, value, callable⟩ <;>
    rw [stands, value, callable] <;> rfl

/-- The lists of variables and of callables have exactly what the map has. -/
structure Lists (scope : Scope) (referents : Referents) : Prop where
  values : ∀ name value,
    (name, value) ∈ scope.variableList ↔ referents name = some (.value value)
  callables : ∀ callable,
    callable ∈ scope.callableList ↔ referents callable.name = some (.callable callable)

theorem lists_of_represents (represents : scope.Represents referents) :
    scope.Lists referents where
  values name value := by
    rw [variableList, Std.TreeMap.mem_toList_iff_getElem?_eq_some]
    change scope.value? name = some value ↔ _
    rcases bound_of_represents represents name with
      ⟨stands, found, _⟩ | ⟨_, stands, found, _⟩ | ⟨_, stands, found, _⟩ <;> simp [stands, found]
  callables callable := by
    have held : ∀ name, scope.callable? name = some callable ↔
        referents name = some (.callable callable) := by
      intro name
      rcases bound_of_represents represents name with
        ⟨stands, _, found⟩ | ⟨_, stands, _, found⟩ | ⟨_, stands, _, found⟩ <;>
        simp [stands, found]
    rw [callableList, List.mem_map]
    constructor
    · rintro ⟨⟨name, _⟩, member, rfl⟩
      have stands := (held name).mp (Std.TreeMap.mem_toList_iff_getElem?_eq_some.mp member)
      rw [represents.named name _ stands]
      exact stands
    · intro stands
      exact ⟨(callable.name, callable),
        Std.TreeMap.mem_toList_iff_getElem?_eq_some.mpr ((held _).mpr stands), rfl⟩

variable {scopes : Nat → Scope} {maps : Nat → Referents}

theorem represents_update (represents : ∀ number, (scopes number).Represents (maps number))
    {next : Scope} {nextReferents : Referents} (represented : next.Represents nextReferents)
    (target number : Nat) : (Function.update scopes target next number).Represents
      (Function.update maps target nextReferents number) := by
  rw [Function.update_apply, Function.update_apply]
  split
  · exact represented
  · exact represents number

/-- Whatever is done, scopes answer as the maps they represent, and go on to represent them. -/
theorem step_represents (represents : ∀ number, (scopes number).Represents (maps number))
    (action : Action) :
    (keeper.step scopes action).2 = (Referents.keeper.step maps action).2 ∧
      ∀ number, ((keeper.step scopes action).1 number).Represents
        ((Referents.keeper.step maps action).1 number) := by
  cases action with
  | create target => exact ⟨rfl, represents_update represents empty_represents target⟩
  | snapshot source target =>
      exact ⟨rfl, represents_update represents (represents source) target⟩
  | defineVariable target name value =>
      exact ⟨rfl, represents_update represents
        (define_variable_represents (represents target) name value) target⟩
  | defineCallable target callable =>
      exact ⟨rfl, represents_update represents
        (define_callable_represents (represents target) callable) target⟩
  | assign target name value =>
      rcases assign_represents (represents target) name value with
        ⟨error, refused, refused'⟩ | ⟨next, nextReferents, assigned, assigned', represented⟩
      · simp only [Keeper.step, keeper, Referents.keeper, refused, refused']
        exact ⟨trivial, represents⟩
      · simp only [Keeper.step, keeper, Referents.keeper, assigned, assigned']
        exact ⟨trivial, represents_update represents represented target⟩
  | lookup target name =>
      refine ⟨?_, represents⟩
      simp only [Keeper.step, keeper, Referents.keeper, (represents target).values,
        (represents target).callables, defines_of_represents (represents target)]

theorem run_represents (represents : ∀ number, (scopes number).Represents (maps number))
    (actions : List Action) :
    (keeper.run scopes actions).2 = (Referents.keeper.run maps actions).2 ∧
      ∀ number, ((keeper.run scopes actions).1 number).Represents
        ((Referents.keeper.run maps actions).1 number) := by
  induction actions generalizing scopes maps with
  | nil => exact ⟨rfl, represents⟩
  | cons action actions induction =>
      obtain ⟨answers, between⟩ := step_represents represents action
      obtain ⟨later, represented⟩ := induction between
      exact ⟨congrArg₂ List.cons answers later, represented⟩

end Scope

end Reckon
