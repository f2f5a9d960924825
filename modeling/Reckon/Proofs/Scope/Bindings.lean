import Reckon.Scope

/-!
What names stand for after a scope has changed. Binding variables can only take callables away,
different names can be bound in any order, and a variable that has a value can be assigned to.
-/

namespace Reckon

namespace Scope

variable {scope : Scope} {name other : String} {value : Value} {callable found : Callable}
  {given : List (String × Value)}

@[simp] theorem empty_callable? : empty.callable? name = none := by
  simp [callable?, empty]

theorem define_variable_value? :
    (scope.defineVariable name value).value? other =
      if name = other then some value else scope.value? other := by
  rw [value?, defineVariable, Std.TreeMap.getElem?_insert]
  simp only [Std.compare_eq_iff_eq, value?]

theorem define_variable_callable? :
    (scope.defineVariable name value).callable? other =
      if name = other then none else scope.callable? other := by
  rw [callable?, defineVariable, Std.TreeMap.getElem?_erase]
  simp only [Std.compare_eq_iff_eq, callable?]

theorem define_callable_value? :
    (scope.defineCallable callable).value? other =
      if callable.name = other then none else scope.value? other := by
  rw [value?, defineCallable, Std.TreeMap.getElem?_erase]
  simp only [Std.compare_eq_iff_eq, value?]

theorem define_callable_callable? :
    (scope.defineCallable callable).callable? other =
      if callable.name = other then some callable else scope.callable? other := by
  rw [callable?, defineCallable, Std.TreeMap.getElem?_insert]
  simp only [Std.compare_eq_iff_eq, callable?]

/-- A callable seen behind a variable was there before. -/
theorem callable_of_define_variable
    (same : (scope.defineVariable name value).callable? other = some found) :
    scope.callable? other = some found := by
  rw [define_variable_callable?] at same
  split at same
  · cases same
  · exact same

/-- A callable seen behind a new one is the new one or was there before. -/
theorem callable_of_define_callable
    (same : (scope.defineCallable callable).callable? other = some found) :
    found = callable ∨ scope.callable? other = some found := by
  rw [define_callable_callable?] at same
  split at same
  · exact .inl (Option.some.inj same).symm
  · exact .inr same

/-- The last value bound to a name counts. -/
theorem bind_value? :
    (scope.bind given).value? name = (given.reverse.lookup name).or (scope.value? name) := by
  induction given generalizing scope with
  | nil => rfl
  | cons binding given induction =>
      obtain ⟨bound, value⟩ := binding
      have later : (scope.bind ((bound, value) :: given)).value? name =
          ((scope.defineVariable bound value).bind given).value? name := rfl
      rw [later, induction, define_variable_value?, List.reverse_cons, List.lookup_append,
        Option.or_assoc]
      congr 1
      by_cases same : bound = name
      · simp [same]
      · have differs : (name == bound) = false := beq_false_of_ne (Ne.symm same)
        simp [List.lookup_cons, same, differs]

/-- Every name bound to a value is callable no more. -/
theorem bind_callable? :
    (scope.bind given).callable? name =
      if name ∈ given.map Prod.fst then none else scope.callable? name := by
  induction given generalizing scope with
  | nil => rfl
  | cons binding given induction =>
      obtain ⟨bound, value⟩ := binding
      have later : (scope.bind ((bound, value) :: given)).callable? name =
          ((scope.defineVariable bound value).bind given).callable? name := rfl
      rw [later, induction, define_variable_callable?, List.map_cons]
      by_cases same : bound = name
      · simp [same]
      · simp only [same, Ne.symm same, if_false, List.mem_cons, false_or]

/-- A callable seen behind bound variables was there before. -/
theorem callable_of_bind {bindings : List (String × Value)}
    (same : (scope.bind bindings).callable? other = some found) :
    scope.callable? other = some found := by
  induction bindings generalizing scope with
  | nil => exact same
  | cons binding bindings induction => exact callable_of_define_variable (induction same)

theorem bind_congr {like : Scope} (same : scope.names = like.names)
    (given : List (String × Value)) : (scope.bind given).names = (like.bind given).names := by
  have values : scope.value? = like.value? := congrArg Names.value? same
  have callables : scope.callable? = like.callable? := congrArg Names.callable? same
  refine Names.mk.injEq .. ▸ ⟨funext fun name => ?_, funext fun name => ?_⟩
  · rw [bind_value?, bind_value?, values]
  · rw [bind_callable?, bind_callable?, callables]

/-- Different names can be bound in any order. -/
theorem bind_perm {reordered : List (String × Value)} (perm : given.Perm reordered)
    (distinct : (given.map Prod.fst).Nodup) :
    (scope.bind given).names = (scope.bind reordered).names := by
  induction perm generalizing scope with
  | nil => rfl
  | cons binding _ induction => exact induction (List.nodup_cons.mp distinct).2
  | swap first second rest =>
      have differ : second.1 ≠ first.1 := by
        rintro same
        rw [List.map_cons, List.map_cons, same] at distinct
        exact (List.nodup_cons.mp distinct).1 List.mem_cons_self
      have same : ((scope.defineVariable second.1 second.2).defineVariable first.1 first.2).names =
          ((scope.defineVariable first.1 first.2).defineVariable second.1 second.2).names := by
        refine Names.mk.injEq .. ▸ ⟨funext fun name => ?_, funext fun name => ?_⟩
        · simp only [define_variable_value?]
          split
          · next here => rw [if_neg fun there => differ (there.trans here.symm)]
          · rfl
        · simp only [define_variable_callable?]
          split <;> split <;> rfl
      exact bind_congr same rest
  | trans first _ induction later =>
      exact (induction distinct).trans (later ((first.map Prod.fst).nodup distinct))

/-- Exactly a variable is assigned to; otherwise the error says whether there is a callable. -/
theorem assign_eq (scope : Scope) (name : String) (value : Value) :
    scope.assign name value =
      if (scope.value? name).isSome then
        .ok { scope with values := scope.values.insert name value }
      else if (scope.callable? name).isSome then .error .notAVariable
      else .error .undefined := by
  rw [assign, Std.TreeMap.contains_eq_isSome_getElem?, Std.TreeMap.contains_eq_isSome_getElem?]
  rfl

/-- A variable with a value is assigned to, and no callable changes. -/
theorem assign_of_value {current : Value} (found : scope.value? name = some current)
    (value : Value) :
    ∃ next, scope.assign name value = .ok next ∧ next.callables = scope.callables := by
  rw [assign_eq, found]
  exact ⟨_, rfl, rfl⟩

theorem assign_of_none (unbound : scope.value? name = none) (value : Value) :
    ∃ error, scope.assign name value = .error error := by
  rw [assign_eq, unbound]
  cases scope.callable? name with
  | none => exact ⟨.undefined, rfl⟩
  | some callable => exact ⟨.notAVariable, rfl⟩

theorem of_assign {next : Scope} (assigned : scope.assign name value = .ok next) :
    (scope.value? name).isSome = true ∧
      next = { scope with values := scope.values.insert name value } := by
  rw [assign_eq] at assigned
  split at assigned
  · next bound =>
      cases assigned
      exact ⟨bound, rfl⟩
  · split at assigned <;> cases assigned

theorem assign_value? {next : Scope} (assigned : scope.assign name value = .ok next) :
    next.value? other = if name = other then some value else scope.value? other := by
  rw [(of_assign assigned).2, value?, Std.TreeMap.getElem?_insert]
  simp only [Std.compare_eq_iff_eq, value?]

theorem assign_callable? {next : Scope} (assigned : scope.assign name value = .ok next) :
    next.callable? other = scope.callable? other := by
  rw [(of_assign assigned).2]
  rfl

theorem callable_of_assign {next : Scope} (assigned : scope.assign name value = .ok next)
    (same : next.callable? other = some found) : scope.callable? other = some found :=
  (assign_callable? assigned).symm.trans same

end Scope

end Reckon
