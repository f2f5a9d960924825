import Reckon.Proofs.Evaluation.Admitted
import Reckon.Proofs.Evaluation.ArgumentOrder
import Reckon.Proofs.Session.Parallel
import Reckon.Proofs.Session.Targets

/-!
Statements accept admitted trees only. The parts of a statement are found only where the table has
them, and its expression has a value. The body of a callable need only be an expression where it is
defined: what is inside it is gone through when it is called.
-/

namespace Reckon

namespace Statement

variable {location : Location} {scope : Scope}

theorem definition_clean {definition : Definition} {pieces : List (Piece Tree)}
    (written : definition.Written pieces) (fits : definition.value.production = .expr)
    (clean : Evaluation.Clean scope definition.value) :
    Evaluation.Clean scope (.node .varDefine pieces location) := by
  cases written with
  | declared named known =>
      obtain ⟨text, kindNamed, _⟩ := Option.bind_eq_some_iff.mp known
      have admitted := Shape.Allows.defineAs (Tree.production_of_name named)
        (Tree.production_of_name kindNamed) fits
      refine Evaluation.clean_of_pieces ?_ (.table admitted) ?_
      · nofun
      · simp only [Piece.every_tree, Piece.every_token, Piece.every_nil, and_true]
        exact ⟨Evaluation.clean_of_name named, Evaluation.clean_of_name kindNamed, clean⟩
  | inferred named =>
      have admitted := Shape.Allows.define (Tree.production_of_name named) fits
      refine Evaluation.clean_of_pieces ?_ (.table admitted) ?_
      · nofun
      · simp only [Piece.every_tree, Piece.every_token, Piece.every_nil, and_true]
        exact ⟨Evaluation.clean_of_name named, clean⟩

theorem assignment_clean {assignment : Assignment} {pieces : List (Piece Tree)}
    (written : assignment.Written pieces) (fits : assignment.value.production = .expr)
    (clean : Evaluation.Clean scope assignment.value) :
    Evaluation.Clean scope (.node .varAssign pieces location) := by
  cases written with
  | assigned named =>
      have admitted := Shape.Allows.assign (Tree.production_of_name named) fits
      refine Evaluation.clean_of_pieces ?_ (.table admitted) ?_
      · nofun
      · simp only [Piece.every_tree, Piece.every_token, Piece.every_nil, and_true]
        exact ⟨Evaluation.clean_of_name named, clean⟩

theorem echoed_written (pieces : List (Piece Tree)) :
    EndsPure (echoed location pieces)
      (fun value => pieces = [.token "echo", .tree value] ∧ value.production = .expr)
      (fun _ => True) := by
  unfold echoed
  split
  · split
    · next keyword =>
        obtain rfl := Piece.eq_token_of_is_token keyword
        refine ⟨?_, fun _ _ => trivial⟩
        intro value found
        obtain ⟨rfl, fits⟩ := (expression_found _).returned value found
        exact ⟨rfl, fits⟩
    · exact .error trivial
  · exact .error trivial

/-- Parameters are found among groups of names only. -/
theorem parameters_fit (callable : String) (seen : List String) (pieces : List (Piece Tree)) :
    EndsPure (parameters callable location seen pieces)
      (fun _ => Shape.Grouped Tree.production ":" .identifier pieces ∧
        Piece.Every (Tree.Everywhere Tree.Admitted) pieces)
      (fun _ => True) := by
  induction pieces using Piece.induct_groups generalizing seen with
  | nil => exact .ok ⟨.none, Piece.every_nil⟩
  | one target => exact .error trivial
  | two target colon => exact .error trivial
  | group target colon declared rest induction =>
      rw [parameters_group]
      split
      · next marked =>
          obtain rfl := Piece.eq_token_of_is_token marked
          apply (name_found _).bind
          rintro name ⟨nameTree, rfl, named⟩
          apply (kind_found _).bind
          rintro kind ⟨kindTree, rfl, known⟩
          obtain ⟨text, kindNamed, _⟩ := Option.bind_eq_some_iff.mp known
          split
          · exact .error trivial
          · apply (induction (name :: seen)).bind
            rintro others ⟨grouped, admitted⟩
            refine .ok ⟨.cons (Tree.production_of_name named) (Tree.production_of_name kindNamed)
              grouped, ?_⟩
            simp only [Piece.every_tree, Piece.every_token]
            exact ⟨Tree.admitted_of_name named, Tree.admitted_of_name kindNamed,
              Piece.every_of_after_comma admitted⟩
      · exact .error trivial

theorem signature_fits (callable : String) (pieces : List (Piece Tree)) :
    EndsPure (signature callable location pieces)
      (fun _ => Shape.Allows Tree.production .signature pieces ∧
        Piece.Every (Tree.Everywhere Tree.Admitted) pieces)
      (fun _ => True) := by
  unfold signature
  split
  · split
    · next enclosed =>
        obtain ⟨opened, closed⟩ := Bool.and_eq_true_iff.mp enclosed
        obtain rfl := Piece.eq_token_of_is_token opened
        obtain rfl := Piece.eq_token_of_is_token closed
        apply (kind_found _).bind
        rintro kind ⟨kindTree, rfl, known⟩
        obtain ⟨text, kindNamed, _⟩ := Option.bind_eq_some_iff.mp known
        split
        · next list found =>
            obtain ⟨rfl, listed⟩ := tree_of_filter found
            obtain ⟨production, groups, place⟩ := list
            cases listed
            apply (parameters_fit callable [] groups).bind
            rintro others ⟨grouped, admitted⟩
            refine .ok ⟨.signature (Tree.production_of_name kindNamed) rfl, ?_⟩
            simp only [Piece.every_tree, Piece.every_token, Piece.every_nil, and_true]
            exact ⟨Tree.admitted_of_name kindNamed,
              Tree.everywhere_node.mpr ⟨.parameters grouped, admitted⟩⟩
        · exact .error trivial
    · exact .error trivial
  · exact .error trivial

theorem callable_fits (pieces : List (Piece Tree)) :
    EndsPure (callable location pieces)
      (fun _ => Shape.Allows Tree.production .callableDefine pieces ∧
        Piece.Every (Tree.Everywhere Tree.Admitted) pieces.dropLast)
      (fun _ => True) := by
  unfold callable
  split
  · split
    · next marked =>
        obtain ⟨colon, equals⟩ := Bool.and_eq_true_iff.mp marked
        obtain rfl := Piece.eq_token_of_is_token colon
        obtain rfl := Piece.eq_token_of_is_token equals
        apply (name_found _).bind
        rintro name ⟨target, rfl, named⟩
        split
        · next signed found =>
            obtain ⟨rfl, signs⟩ := tree_of_filter found
            obtain ⟨production, groups, place⟩ := signed
            cases signs
            apply (signature_fits name groups).bind
            rintro parts ⟨allowed, admitted⟩
            dsimp only
            split
            · next body found =>
                obtain ⟨rfl, valued⟩ := tree_of_filter found
                refine .ok ⟨.defineCallable (Tree.production_of_name named) rfl valued, ?_⟩
                simp only [List.dropLast_cons_cons, List.dropLast_singleton, Piece.every_tree,
                  Piece.every_token, Piece.every_nil, and_true]
                exact ⟨Tree.admitted_of_name named,
                  Tree.everywhere_node.mpr ⟨.table allowed, admitted⟩⟩
            · exact .error trivial
        · exact .error trivial
    · exact .error trivial
  · exact .error trivial

end Statement

namespace Execution

/-- The nodes that the execution of a statement goes through. A newline is passed over, and of the
definition of a callable the last piece is left alone, which is the body. -/
inductive GoesThrough (scope : Scope) (node : Tree) : Tree → Prop where
  | statement {tree : Tree} (other : tree.production ∉ [.newline, .callableDefine])
      (through : scope.GoesThrough node tree) : GoesThrough scope node tree
  | definition (produced : node.production = .callableDefine) : GoesThrough scope node node
  | head {tree inner : Tree} (produced : tree.production = .callableDefine)
      (member : .tree inner ∈ tree.pieces.dropLast) (part : node.PartOf inner) :
      GoesThrough scope node tree

variable {session next : Session} {tree : Tree}

theorem define_clean {pieces : List (Piece Tree)} {place : Location} {value : Value}
    (ran : define place pieces session = some (.ok value, next)) :
    Evaluation.Clean session.scope (.node .varDefine pieces place) := by
  obtain ⟨definition, found, ran⟩ := ok_of_told ran
  obtain ⟨computed, evaluated, _⟩ := ok_of_evaluate ran
  obtain ⟨written, fits⟩ := (Statement.definition_written pieces).returned definition found
  exact Statement.definition_clean written fits (Evaluation.clean_of_evaluated evaluated)

theorem assign_clean {pieces : List (Piece Tree)} {place : Location} {value : Value}
    (ran : assign place pieces session = some (.ok value, next)) :
    Evaluation.Clean session.scope (.node .varAssign pieces place) := by
  obtain ⟨assignment, found, ran⟩ := ok_of_told ran
  obtain ⟨written, fits⟩ := (Statement.assignment_written pieces).returned assignment found
  obtain ⟨looked, middle, same, ran⟩ := ok_of_bind ran
  cases same
  cases bound : session.scope.value? assignment.name with
  | none =>
      simp only [bound] at ran
      cases ran
  | some current =>
      simp only [bound] at ran
      obtain ⟨computed, evaluated, _⟩ := ok_of_evaluate ran
      exact Statement.assignment_clean written fits (Evaluation.clean_of_evaluated evaluated)

theorem echo_clean {pieces : List (Piece Tree)} {place : Location} {value : Value}
    (ran : echo place pieces session = some (.ok value, next)) :
    Evaluation.Clean session.scope (.node .echo pieces place) := by
  obtain ⟨inner, found, ran⟩ := ok_of_told ran
  obtain ⟨computed, evaluated, _⟩ := ok_of_evaluate ran
  obtain ⟨rfl, fits⟩ := (Statement.echoed_written pieces).returned inner found
  refine Evaluation.clean_of_pieces ?_ (.table (.echo fits)) ?_
  · nofun
  · simp only [Piece.every_tree, Piece.every_token, Piece.every_nil, and_true]
    exact Evaluation.clean_of_evaluated evaluated

/-- Every statement that succeeds is clean, unless it is a newline or defines a callable. -/
theorem of_tree_clean {result : Option Value}
    (ran : ofTree tree session = some (.ok result, next))
    (other : tree.production ∉ [.newline, .callableDefine]) :
    Evaluation.Clean session.scope tree := by
  have evaluates (ran : (some <$> evaluate tree) session = some (.ok result, next)) :
      Evaluation.Clean session.scope tree := by
    obtain ⟨value, ended, _⟩ := ok_of_map ran
    obtain ⟨⟨outcome, calls⟩, evaluated, same⟩ := Option.map_eq_some_iff.mp ended
    cases same
    exact Evaluation.clean_of_evaluated evaluated
  obtain ⟨production, pieces, place⟩ := tree
  rw [ofTree] at ran
  cases production with
  | newline => simp [Tree.production] at other
  | callableDefine => simp [Tree.production] at other
  | varDefine =>
      obtain ⟨value, ended, _⟩ := ok_of_map ran
      exact define_clean ended
  | varAssign =>
      obtain ⟨value, ended, _⟩ := ok_of_map ran
      exact assign_clean ended
  | echo =>
      obtain ⟨value, ended, _⟩ := ok_of_map ran
      exact echo_clean ended
  | parameters => cases ran
  | signature => cases ran
  | arguments => cases ran
  | expr => exact evaluates ran
  | term => exact evaluates ran
  | factor => exact evaluates ran
  | atom => exact evaluates ran
  | call => exact evaluates ran
  | intLiteral => exact evaluates ran
  | numLiteral => exact evaluates ran
  | identifier => exact evaluates ran

/-- The definition of a callable that succeeds is admitted, and so is all that stands before the
body. -/
theorem callable_definition_admitted {result : Option Value}
    (ran : ofTree tree session = some (.ok result, next))
    (produced : tree.production = .callableDefine) :
    tree.Admitted ∧ Piece.Every (Tree.Everywhere Tree.Admitted) tree.pieces.dropLast := by
  obtain ⟨production, pieces, place⟩ := tree
  cases produced
  obtain ⟨_, middle, ended, _⟩ := ok_of_bind ran
  obtain ⟨callable, found, _⟩ := ok_of_told ended
  obtain ⟨allowed, admitted⟩ := (Statement.callable_fits pieces).returned callable found
  exact ⟨.table allowed, admitted⟩

/-- Whatever trees are given, an evaluation that has a value has gone through admitted nodes only,
and so has the execution of a statement that succeeds: each of these nodes has the pieces of the
table, but for the commas behind groups and the texts of leaves. -/
theorem only_admitted_trees_succeed :
    (∀ (scope : Scope) (tree : Tree) (calls next : Calls) (value : Value),
      tree.evaluate scope calls = some (.ok value, next) →
        ∀ node, scope.GoesThrough node tree → node.Admitted) ∧
    ∀ (session next : Session) (tree : Tree) (result : Option Value),
      ofTree tree session = some (.ok result, next) →
        ∀ node, GoesThrough session.scope node tree → node.Admitted := by
  constructor
  · intro scope tree calls next value evaluated
    exact Evaluation.clean_of_evaluated evaluated
  · intro session next tree result ran node through
    cases through with
    | statement other inside => exact of_tree_clean ran other node inside
    | definition produced => exact (callable_definition_admitted ran produced).1
    | head produced member part =>
        exact (callable_definition_admitted ran produced).2 _ member node part

/-- A definition built by hand, of a callable with a blank in its name, without a comma between its
two parameters. -/
def unparted (body : Tree) : Tree :=
  .node .callableDefine [.tree (.leaf .identifier "add up" .unknown), .token ":",
    .tree (.node .signature [.tree (.leaf .identifier "int" .unknown), .token "(",
      .tree (.node .parameters [.tree (.leaf .identifier "a" .unknown), .token ":",
        .tree (.leaf .identifier "int" .unknown), .tree (.leaf .identifier "b" .unknown),
        .token ":", .tree (.leaf .identifier "int" .unknown)] .unknown), .token ")"] .unknown),
    .token "=", .tree body] .unknown

/-- What it defines. -/
def addUp (body : Tree) : Callable := ⟨"add up", .int, [⟨"a", .int⟩, ⟨"b", .int⟩], body, .start⟩

/-- The definition succeeds, and so does a call of what it defines. The body that the call enters is
gone through, and it is admitted. -/
theorem unparted_definition_and_call_are_admitted :
    ∃ body one two defined value last, parse "a + b" = .ok [body] ∧ parse "1" = .ok [one] ∧
      parse "2" = .ok [two] ∧
      ofTree (unparted body) (.start .empty (some 4) .empty) = some (.ok none, defined) ∧
      (unparted body).Admitted ∧
      (Tree.pairCall "add up" ("a", one) ("b", two)).evaluate defined.scope defined.calls =
        some (.ok value, last) ∧
      defined.scope.GoesThrough body (Tree.pairCall "add up" ("a", one) ("b", two)) ∧
      body.Admitted := by
  obtain ⟨body, readBody⟩ : ∃ body, parse "a + b" = .ok [body] := ⟨_, rfl⟩
  obtain ⟨one, readOne⟩ : ∃ one, parse "1" = .ok [one] := ⟨_, rfl⟩
  obtain ⟨two, readTwo⟩ : ∃ two, parse "2" = .ok [two] := ⟨_, rfl⟩
  have defines : ofTree (unparted body) (.start .empty (some 4) .empty) =
      some (.ok none, .start (.defineCallable .empty (addUp body)) (some 4) .empty) := by
    cases readBody
    rfl
  have returns : ((Tree.pairCall "add up" ("a", one) ("b", two)).evaluate
      (.defineCallable .empty (addUp body)) (.start (some 4))).any (·.1.toBool) = true := by
    cases readBody
    cases readOne
    cases readTwo
    decide +kernel
  obtain ⟨⟨outcome, last⟩, evaluated, ok⟩ := (Option.any_eq_true _ _).mp returns
  cases outcome with
  | error fault => cases ok
  | ok value =>
      obtain ⟨evaluations, statements⟩ := only_admitted_trees_succeed
      have called : (Tree.pairCall "add up" ("a", one) ("b", two)).CallsAt "add up" .unknown :=
        ⟨_, _, .whole, rfl⟩
      have found : (Scope.defineCallable .empty (addUp body)).callable? "add up" =
          some (addUp body) := Scope.define_callable_callable?.trans (if_pos rfl)
      have through : (Scope.defineCallable .empty (addUp body)).GoesThrough body
          (Tree.pairCall "add up" ("a", one) ("b", two)) := .body called found (.own .whole)
      exact ⟨body, one, two, _, value, last, readBody, readOne, readTwo, defines,
        statements _ _ _ _ defines _ (.definition rfl), evaluated, through,
        evaluations _ _ _ _ _ evaluated _ through⟩

end Execution

end Reckon
