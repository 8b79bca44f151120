import JackToolchain.Proofs.Jack.Emission
import JackToolchain.Proofs.Jack.Grammar

/-!
# Where commands come from

Every command of a compiled expression is computed by one of its parts, and every command of
compiled statements by a part of one of their expressions, unless it is one of the few commands that
statements are joined with. So what holds of all commands follows from what holds of each part by
itself.
-/
namespace JackToolchain.Jack

open Vm (Command RuntimeNames)

/-! ## Commands of parts -/

/-- The commands that an expression adds to those of the expressions in it. -/
def Expr.own (runtime : RuntimeNames) (scope : Scope) : Expr → List Command
  | .binary op _ _ _ => [op.command runtime]
  | .unary op _ _ => [op.command]
  | .integer value _ => [.push .constant value]
  | .string content _ => stringCommands runtime content
  | .boolean true _ => [.push .constant 1, .operate .neg]
  | .boolean false _ | .null _ => [.push .constant 0]
  | .this _ => [.push .pointer 0]
  | .variable name _ => ((scope.lookup? name).map Entry.push).toList
  | .element array _ _ =>
    ((scope.lookup? array.node).map Entry.push).toList ++
      [.operate .add, .pop .pointer 1, .push .that 0]
  | .call receiver name args _ =>
    match scope.callee receiver name with
    | .ok callee => callee.receiver ++ [callee.call args.length]
    | .error _ => []
  | .group _ _ => []

/-- The commands without a name or a number of the source that statements are joined with. -/
def joints : List Command :=
  [.operate .add, .operate .not, .push .constant 0, .push .temp 0, .pop .temp 0, .pop .pointer 1,
    .pop .that 0, .return]

/-- The stems of the labels of statements. -/
def stems : List String := ["IF_FALSE", "IF_END", "WHILE_TOP", "WHILE_END"]

/-- The commands that statements are joined with, besides those of their expressions. -/
inductive Joins (scope : Scope) : Command → Prop
  | joint {command : Command} (member : command ∈ joints) : Joins scope command
  | read {name : String} {entry : Entry} (known : scope.lookup? name = some entry) :
      Joins scope entry.push
  | write {name : String} {entry : Entry} (known : scope.lookup? name = some entry) :
      Joins scope entry.pop
  | label {stem : String} (member : stem ∈ stems) (number : Nat) :
      Joins scope (.label (numberedLabel stem number))
  | goto {stem : String} (member : stem ∈ stems) (number : Nat) :
      Joins scope (.goto (numberedLabel stem number))
  | ifGoto {stem : String} (member : stem ∈ stems) (number : Nat) :
      Joins scope (.ifGoto (numberedLabel stem number))

/-- Each of the commands is computed by one of the expressions. -/
def MadeBy (runtime : RuntimeNames) (scope : Scope) (parts : List Expr) (code : List Command) :
    Prop :=
  ∀ command ∈ code, ∃ part ∈ parts, command ∈ part.own runtime scope

/-- Each of the commands is computed by one of the expressions, or it joins statements. -/
def ComesFrom (runtime : RuntimeNames) (scope : Scope) (parts : List Expr)
    (code : List Command) : Prop :=
  ∀ command ∈ code, (∃ part ∈ parts, command ∈ part.own runtime scope) ∨ Joins scope command

section Commands

variable {runtime : RuntimeNames} {scope : Scope} {parts others : List Expr}
variable {code front back : List Command}

/-- Consecutive commands are computed by the expressions of both. -/
theorem MadeBy.append (first : MadeBy runtime scope parts front)
    (second : MadeBy runtime scope others back) :
    MadeBy runtime scope (parts ++ others) (front ++ back) := by
  refine List.forall_mem_append.mpr ⟨fun command member => ?_, fun command member => ?_⟩
  · obtain ⟨part, inside, computed⟩ := first command member
    exact ⟨part, List.mem_append_left _ inside, computed⟩
  · obtain ⟨part, inside, computed⟩ := second command member
    exact ⟨part, List.mem_append_right _ inside, computed⟩

/-- An expression computes its own commands. -/
theorem madeBy_own {expr : Expr} (own : expr.own runtime scope = code) :
    MadeBy runtime scope (expr :: parts) code :=
  fun _ member => ⟨expr, List.mem_cons_self, own ▸ member⟩

/-- What the parts of an expression compute is computed. -/
theorem MadeBy.cons (inner : MadeBy runtime scope parts code) (expr : Expr) :
    MadeBy runtime scope (expr :: parts) code := by
  intro command member
  obtain ⟨part, inside, computed⟩ := inner command member
  exact ⟨part, List.mem_cons_of_mem _ inside, computed⟩

/-- An expression puts its own commands around those of its parts. -/
theorem MadeBy.around {expr : Expr} (inner : MadeBy runtime scope parts code)
    (own : expr.own runtime scope = front ++ back) :
    MadeBy runtime scope (expr :: parts) (front ++ code ++ back) := by
  have self : MadeBy runtime scope (expr :: parts) (front ++ back) := madeBy_own own
  refine List.forall_mem_append.mpr ⟨List.forall_mem_append.mpr ⟨?_, inner.cons expr⟩, ?_⟩
  · exact fun command member => self command (List.mem_append_left _ member)
  · exact fun command member => self command (List.mem_append_right _ member)

/-- Consecutive commands come from the expressions of both. -/
theorem ComesFrom.append (first : ComesFrom runtime scope parts front)
    (second : ComesFrom runtime scope others back) :
    ComesFrom runtime scope (parts ++ others) (front ++ back) := by
  intro command member
  rcases List.mem_append.mp member with own | own
  · refine (first command own).imp_left ?_
    rintro ⟨part, inside, computed⟩
    exact ⟨part, List.mem_append_left _ inside, computed⟩
  · refine (second command own).imp_left ?_
    rintro ⟨part, inside, computed⟩
    exact ⟨part, List.mem_append_right _ inside, computed⟩

/-- Commands that join statements come from no expression. -/
theorem comesFrom_joins (joins : ∀ command ∈ code, Joins scope command) :
    ComesFrom runtime scope [] code :=
  fun command member => .inr (joins command member)

/-- Commands that join statements may follow. -/
theorem ComesFrom.join (first : ComesFrom runtime scope parts front)
    (joins : ∀ command ∈ back, Joins scope command) :
    ComesFrom runtime scope parts (front ++ back) := by
  have whole := first.append (comesFrom_joins joins)
  rwa [List.append_nil] at whole

/-- A test joins a condition with what depends on it. -/
theorem joins_test {stem : String} (member : stem ∈ stems) (number : Nat) :
    ∀ command ∈ [Command.operate .not, .ifGoto (numberedLabel stem number)],
      Joins scope command := by
  have negates : Command.operate .not ∈ joints := by decide
  exact List.forall_mem_cons.mpr
    ⟨.joint negates, List.forall_mem_singleton.mpr (.ifGoto member number)⟩

mutual

/-- The commands of an expression are computed by its parts. -/
theorem madeBy_of_expr (expr : Expr) {code : List Command}
    (made : expr.commands runtime scope = .ok code) : MadeBy runtime scope expr.parts code := by
  unfold Expr.parts
  cases expr with
  | binary op left right span =>
    obtain ⟨leftCode, rightCode, leftMade, rightMade, rfl⟩ := emitted_binary made
    have operands := (madeBy_of_expr left leftMade).append (madeBy_of_expr right rightMade)
    exact @MadeBy.around _ _ _ _ [] [op.command runtime] _ operands rfl
  | unary op operand span =>
    obtain ⟨operandCode, operandMade, rfl⟩ := emitted_unary made
    exact @MadeBy.around _ _ _ _ [] [op.command] _ (madeBy_of_expr operand operandMade) rfl
  | boolean value span =>
    cases value with
    | false => exact madeBy_own (Except.ok.inj made)
    | true => exact madeBy_own (Except.ok.inj made)
  | «variable» name span =>
    obtain ⟨entry, resolved, rfl⟩ := emitted_variable made
    have known : scope.lookup? name = some entry := lookup?_of_resolve resolved
    exact madeBy_own (by rw [Expr.own, known]; rfl)
  | element array index span =>
    obtain ⟨indexCode, entry, indexMade, resolved, rfl⟩ := emitted_element made
    refine @MadeBy.around _ _ _ _ [] _ _ (madeBy_of_expr index indexMade) ?_
    rw [Expr.own, lookup?_of_resolve resolved]
    rfl
  | call receiver name args span =>
    obtain ⟨callee, argsCode, calleeMade, argsMade, rfl⟩ := emitted_call made
    refine (madeBy_of_arguments args argsMade).around ?_
    rw [Expr.own, calleeMade]
  | group inner span => exact (madeBy_of_expr inner made).cons _
  | _ => exact madeBy_own (Except.ok.inj made)

/-- The commands of arguments are computed by their parts. -/
theorem madeBy_of_arguments (args : List Expr) {code : List Command}
    (made : argumentCommands runtime scope args = .ok code) :
    MadeBy runtime scope (Expr.argumentParts args) code := by
  cases args with
  | nil =>
    obtain rfl := Except.ok.inj made
    exact fun command member => by contradiction
  | cons arg rest =>
    obtain ⟨argCode, restCode, argMade, restMade, rfl⟩ := emitted_arguments made
    exact (madeBy_of_expr arg argMade).append (madeBy_of_arguments rest restMade)

end

/-- The commands of an expression come from its parts. -/
theorem comesFrom_of_expr {expr : Expr} (made : expr.commands runtime scope = .ok code) :
    ComesFrom runtime scope expr.parts code :=
  fun command member => .inl (madeBy_of_expr expr made command member)

mutual

/-- The commands of a statement come from its expressions. -/
theorem comesFrom_of_stmt (stmt : Stmt) {number next : Nat} {code : List Command}
    (made : stmt.commands runtime scope number = .ok (code, next)) :
    ComesFrom runtime scope stmt.parts code := by
  cases stmt with
  | assign target value span =>
    obtain ⟨valueCode, entry, valueMade, resolved, rfl, -⟩ := emitted_assign made
    exact (comesFrom_of_expr valueMade).join
      (List.forall_mem_singleton.mpr (.write (lookup?_of_resolve resolved)))
  | assignElement array index value span =>
    obtain ⟨entry, indexCode, valueCode, resolved, indexMade, valueMade, rfl, -⟩ :=
      emitted_assignElement made
    have base : ComesFrom runtime scope [] [entry.push] :=
      comesFrom_joins (List.forall_mem_singleton.mpr (.read (lookup?_of_resolve resolved)))
    have adds : Command.operate .add ∈ joints := by decide
    have address := (base.append (comesFrom_of_expr indexMade)).join
      (List.forall_mem_singleton.mpr (.joint adds))
    refine (address.append (comesFrom_of_expr valueMade)).join fun command member => .joint ?_
    revert command
    decide
  | branch condition thenBody elseBody span =>
    obtain ⟨conditionCode, thenCode, elseCode, middle, conditionMade, thenMade, elseMade, rfl⟩ :=
      emitted_branch made
    have test := (comesFrom_of_expr conditionMade).join
      (joins_test (by decide : "IF_FALSE" ∈ stems) number)
    have first := (test.append (comesFrom_of_body thenBody thenMade)).join
      (List.forall_mem_cons.mpr ⟨.goto (by decide : "IF_END" ∈ stems) (number + 1),
        List.forall_mem_singleton.mpr (.label (by decide : "IF_FALSE" ∈ stems) number)⟩)
    exact (first.append (comesFrom_of_body elseBody elseMade)).join
      (List.forall_mem_singleton.mpr (.label (by decide) (number + 1)))
  | loop condition body span =>
    obtain ⟨conditionCode, bodyCode, conditionMade, bodyMade, rfl⟩ := emitted_loop made
    have start : ComesFrom runtime scope [] [Command.label (numberedLabel "WHILE_TOP" number)] :=
      comesFrom_joins (List.forall_mem_singleton.mpr (.label (by decide) number))
    have test := (start.append (comesFrom_of_expr conditionMade)).join
      (joins_test (by decide : "WHILE_END" ∈ stems) (number + 1))
    exact (test.append (comesFrom_of_body body bodyMade)).join
      (List.forall_mem_cons.mpr ⟨.goto (by decide) number,
        List.forall_mem_singleton.mpr (.label (by decide) (number + 1))⟩)
  | call receiver name args span =>
    obtain ⟨callCode, callMade, rfl, -⟩ := emitted_callStatement made
    exact (comesFrom_of_expr callMade).join
      (List.forall_mem_singleton.mpr (.joint (by decide)))
  | leave result span =>
    cases result with
    | none =>
      obtain ⟨rfl, -⟩ := Prod.mk.inj (Except.ok.inj made)
      exact comesFrom_joins (List.forall_mem_cons.mpr
        ⟨.joint (by decide), List.forall_mem_singleton.mpr (.joint (by decide))⟩)
    | some value =>
      obtain ⟨valueCode, valueMade, rfl, -⟩ := emitted_leave made
      exact (comesFrom_of_expr valueMade).join
        (List.forall_mem_singleton.mpr (.joint (by decide)))

/-- The commands of statements come from their expressions. -/
theorem comesFrom_of_body (stmts : List Stmt) {number next : Nat} {code : List Command}
    (made : bodyCommands runtime scope number stmts = .ok (code, next)) :
    ComesFrom runtime scope (Stmt.bodyParts stmts) code := by
  cases stmts with
  | nil =>
    obtain ⟨rfl, -⟩ := Prod.mk.inj (Except.ok.inj made)
    exact fun command member => by contradiction
  | cons stmt rest =>
    obtain ⟨stmtCode, restCode, middle, stmtMade, restMade, rfl⟩ := emitted_body made
    exact (comesFrom_of_stmt stmt stmtMade).append (comesFrom_of_body rest restMade)

end

end Commands

/-! ## Subroutines -/

/-- The commands of a subroutine: its entry, its prologue and those of its statements. -/
inductive Arises (runtime : RuntimeNames) (known : ClassScope) (subroutine : Subroutine)
    (scope : Scope) : Command → Prop
  | entry : Arises runtime known subroutine scope
      (.function (ClassScope.qualify known.name subroutine.name.node) scope.routine.counts.local)
  | prologue {command : Command} (member : command ∈ prologue runtime known subroutine.kind) :
      Arises runtime known subroutine scope command
  | computed {part : Expr} {command : Command} (inside : part ∈ Stmt.bodyParts subroutine.body)
      (own : command ∈ part.own runtime scope) : Arises runtime known subroutine scope command
  | joined {command : Command} (joins : Joins scope command) :
      Arises runtime known subroutine scope command

section Subroutines

variable {runtime : RuntimeNames} {known : ClassScope} {number next : Nat} {code : List Command}

/-- The commands of a subroutine are its own. -/
theorem arises_of_subroutine {subroutine : Subroutine}
    (made : subroutine.commands runtime known number = .ok (code, next)) :
    ∃ scope, Scope.ofSubroutine known subroutine = .ok scope ∧
      ∀ command ∈ code, Arises runtime known subroutine scope command := by
  obtain ⟨scope, body, scopeMade, bodyMade, rfl⟩ := emitted_subroutine made
  refine ⟨scope, scopeMade, List.forall_mem_cons.mpr ⟨.entry, ?_⟩⟩
  refine List.forall_mem_append.mpr ⟨fun command member => .prologue member, ?_⟩
  intro command member
  obtain ⟨part, inside, own⟩ | joins := comesFrom_of_body subroutine.body bodyMade command member
  · exact .computed inside own
  · exact .joined joins

/-- Every command of subroutines is one of the commands of one of them. -/
theorem arises_of_subroutines {subroutines : List Subroutine}
    (made : subroutineCommands runtime known number subroutines = .ok code) :
    ∀ command ∈ code, ∃ subroutine ∈ subroutines, ∃ scope,
      Scope.ofSubroutine known subroutine = .ok scope ∧
        Arises runtime known subroutine scope command := by
  induction subroutines generalizing number code with
  | nil =>
    obtain rfl := Except.ok.inj made
    exact fun command member => by contradiction
  | cons subroutine rest ih =>
    obtain ⟨own, later, next, ownMade, laterMade, rfl⟩ := emitted_subroutines made
    obtain ⟨scope, scopeMade, arises⟩ := arises_of_subroutine ownMade
    refine List.forall_mem_append.mpr ⟨fun command member => ?_, fun command member => ?_⟩
    · exact ⟨subroutine, List.mem_cons_self, scope, scopeMade, arises command member⟩
    · obtain ⟨other, inside, rest⟩ := ih laterMade command member
      exact ⟨other, List.mem_cons_of_mem _ inside, rest⟩

end Subroutines

end JackToolchain.Jack
