import JackToolchain.Proofs.Jack.Preservation

/-!
# Depth of the stack

Every place of a compiled function has one depth of the stack, whichever way execution gets there:
the net effect of the commands in front of it. Expressions may stand at any depth, since their
arguments are left on the stack while later ones are computed, but statements, and with them labels
and jumps, only stand where the stack is empty. So the depth at the end of a jump is the same as
that at its start, although the commands in between are not executed.
-/
namespace JackToolchain

namespace Vm

/-- The number of words that a command takes from the stack. -/
def Command.taken : Command → Nat
  | .operate operation => if operation.isUnary then 1 else 2
  | .pop _ _ | .ifGoto _ | .return => 1
  | .call _ args => args
  | .push _ _ | .label _ | .goto _ | .function _ _ => 0

/-- The number of words that a command leaves on the stack in their place. -/
def Command.given : Command → Nat
  | .operate _ | .push _ _ | .call _ _ => 1
  | .pop _ _ | .ifGoto _ | .return | .label _ | .goto _ | .function _ _ => 0

/-- The depth that the stack must have in front of a command, where that is fixed. -/
def Command.fixedDepth? : Command → Option Nat
  | .label _ | .goto _ | .function _ _ => some 0
  | .ifGoto _ | .return => some 1
  | .operate _ | .push _ _ | .pop _ _ | .call _ _ => none

/-- Whether execution may go on behind a command. -/
def Command.goesOn : Command → Bool
  | .goto _ | .return => false
  | _ => true

/-- The depth behind a command, from the one in front of it. -/
def Command.depthAfter (depth : Nat) (command : Command) : Nat :=
  depth - command.taken + command.given

namespace Routine

/-- Consecutive commands of a program are one of its functions: they start with an entry and go up
to the next one or to the end of the program. -/
structure IsFunction (program code : List Command) : Prop where
  /-- The first command is an entry, and no other one is. -/
  entry : ∃ name locals body, code = .function name locals :: body ∧
    ∀ command ∈ body, command.isEntry = false
  /-- They stand in the program, where another entry or nothing follows. -/
  placed : ∃ front back, program = front ++ code ++ back ∧
    ∀ next ∈ back.head?, next.isEntry = true

/-- An assignment of a depth to each place of a function that agrees with all its edges. -/
structure Disciplined (code : List Command) (depth : Nat → Nat) : Prop where
  /-- The stack is empty behind the entry. -/
  start : depth 1 = 0
  /-- From a command to the one behind it the depth changes by the effect of the command. -/
  falls : ∀ {position command}, code[position]? = some command → command.goesOn = true →
    (depth (position + 1) : Int) = depth position + command.stackEffect
  /-- From a jump to its label the depth changes by the effect of the jump. -/
  jumps : ∀ {position command name target}, code[position]? = some command →
    command.target? = some name → code[target]? = some (.label name) →
      (depth target : Int) = depth position + command.stackEffect
  /-- A command finds the words that it takes. -/
  enough : ∀ {position command}, code[position]? = some command → command.taken ≤ depth position
  /-- The stack is empty at a label. -/
  labels : ∀ {position name}, code[position]? = some (.label name) → depth position = 0
  /-- A return finds its result and nothing else. -/
  returns : ∀ {position}, code[position]? = some .return → depth position = 1

/-! ## Straight runs of commands -/

/-- Commands that are executed in a row take the stack from one depth to another; each of them finds
the words that it takes and the depth that it must have. -/
def Carries : Nat → List Command → Nat → Prop
  | low, [], high => low = high
  | low, command :: rest, high =>
    (command.taken ≤ low ∧ ∀ depth ∈ command.fixedDepth?, low = depth) ∧
      Carries (command.depthAfter low) rest high

section Runs

variable {low middle high depth position : Nat} {code front back : List Command}
variable {command : Command}

/-- A depth changes by the effect of the command. -/
theorem depthAfter_eq (enough : command.taken ≤ depth) :
    (command.depthAfter depth : Int) = depth + command.stackEffect := by
  have effect : command.stackEffect = command.given - command.taken := by
    cases command with
    | operate operation => cases operation <;> rfl
    | call name args => rfl
    | _ => rfl
  rw [effect, Command.depthAfter]
  omega

/-- One command. -/
theorem Carries.single (enough : command.taken ≤ low)
    (fixed : ∀ depth ∈ command.fixedDepth?, low = depth)
    (after : command.depthAfter low = high) : Carries low [command] high :=
  ⟨⟨enough, fixed⟩, after⟩

/-- Consecutive commands. -/
theorem Carries.append (first : Carries low front middle) (second : Carries middle back high) :
    Carries low (front ++ back) high := by
  induction front generalizing low with
  | nil =>
    obtain rfl := first
    exact second
  | cons command rest ih => exact ⟨first.1, ih first.2⟩

/-- Consecutive commands meet at some depth. -/
theorem Carries.cut (whole : Carries low (front ++ back) high) :
    ∃ middle, Carries low front middle ∧ Carries middle back high := by
  induction front generalizing low with
  | nil => exact ⟨low, rfl, whole⟩
  | cons command rest ih =>
    obtain ⟨middle, first, second⟩ := ih whole.2
    exact ⟨middle, ⟨whole.1, first⟩, second⟩

/-- The depth at a place, from the one in front of the first command. -/
def depthAt (low : Nat) (code : List Command) (position : Nat) : Nat :=
  (code.take position).foldl Command.depthAfter low

/-- A command at a place finds what it needs, and the next place has the depth behind it. -/
theorem Carries.at_place (run : Carries low code high) (place : code[position]? = some command) :
    command.taken ≤ depthAt low code position ∧
      (∀ depth ∈ command.fixedDepth?, depthAt low code position = depth) ∧
      depthAt low code (position + 1) = command.depthAfter (depthAt low code position) := by
  induction code generalizing low position with
  | nil => contradiction
  | cons first rest ih =>
    cases position with
    | zero =>
      obtain rfl := Option.some.inj place
      exact ⟨run.1.1, run.1.2, rfl⟩
    | succ position => exact ih run.2 place

/-- A function whose commands start and end with an empty stack has a depth for each place. -/
theorem disciplined_of_carries {name : String} {locals : Nat} {body : List Command}
    (run : Carries low (.function name locals :: body) high) :
    Disciplined (.function name locals :: body)
      (depthAt low (.function name locals :: body)) := by
  have empty : low = 0 := run.1.2 0 rfl
  subst empty
  have fixed {position wanted : Nat} {command : Command}
      (place : (Command.function name locals :: body)[position]? = some command)
      (wants : command.fixedDepth? = some wanted) :
      depthAt 0 (.function name locals :: body) position = wanted :=
    (run.at_place place).2.1 wanted wants
  constructor
  case start => rfl
  case falls =>
    intro position command place _
    obtain ⟨enough, -, next⟩ := run.at_place place
    rw [next, depthAfter_eq enough]
  case jumps =>
    intro position command name target place jumps label
    rw [fixed label rfl]
    cases command with
    | goto other =>
      rw [fixed place rfl]
      rfl
    | ifGoto other =>
      rw [fixed place rfl]
      rfl
    | _ => contradiction
  case enough => exact fun place => (run.at_place place).1
  case labels => exact fun place => fixed place rfl
  case returns => exact fun place => fixed place rfl

end Runs

end Routine

end Vm

namespace Jack

open Vm (Command RuntimeNames)
open Vm.Routine (Carries Disciplined IsFunction disciplined_of_carries)

/-! ## Expressions -/

section Expressions

variable {runtime : RuntimeNames} {scope : Scope} {depth : Nat} {code : List Command}

/-- A push leaves one word. -/
theorem carries_push (segment : Vm.Segment) (index depth : Nat) :
    Carries depth [.push segment index] (depth + 1) :=
  .single (Nat.zero_le _) (fun _ none => by contradiction) rfl

/-- A pop takes one word. -/
theorem carries_pop (segment : Vm.Segment) (index depth : Nat) :
    Carries (depth + 1) [.pop segment index] depth :=
  .single (Nat.le_add_left 1 depth) (fun _ none => by contradiction) rfl

/-- A call takes its arguments and leaves one word. -/
theorem carries_call (name : String) (args depth : Nat) :
    Carries (depth + args) [.call name args] (depth + 1) :=
  .single (Nat.le_add_left args depth) (fun _ none => by contradiction)
    (congrArg (· + 1) (Nat.add_sub_cancel depth args))

/-- An infix operator takes its two operands and leaves one word. -/
theorem carries_binary (op : BinaryOp) (depth : Nat) :
    Carries (depth + 1 + 1) [op.command runtime] (depth + 1) := by
  cases op with
  | mul => exact carries_call _ 2 depth
  | div => exact carries_call _ 2 depth
  | _ => exact .single (Nat.le_add_left 2 depth) (fun _ none => by contradiction) rfl

/-- A sign replaces its operand. -/
theorem carries_unary (op : UnaryOp) (depth : Nat) :
    Carries (depth + 1) [op.command] (depth + 1) := by
  cases op <;> exact .single (Nat.le_add_left 1 depth) (fun _ none => by contradiction) rfl

/-- A string literal leaves one word: every call takes the string and leaves it again. -/
theorem carries_string (content : String) (depth : Nat) :
    Carries depth (stringCommands runtime content) (depth + 1) := by
  have appends (chars : List Char) : Carries (depth + 1)
      (chars.flatMap fun c => [.push .constant c.toNat, .call runtime.stringAppend 2])
      (depth + 1) := by
    induction chars with
    | nil => rfl
    | cons c rest ih =>
      rw [List.flatMap_cons]
      exact ((carries_push _ _ _).append (carries_call _ 2 depth)).append ih
  exact ((carries_push _ _ _).append (carries_call _ 1 depth)).append (appends content.toList)

/-- A receiver leaves as many words as a call counts for it. -/
theorem carries_receiver {receiver : Option Name} {name : Name} {callee : Callee}
    (made : scope.callee receiver name = .ok callee) (depth : Nat) :
    Carries depth callee.receiver (depth + callee.receiver.length) := by
  obtain ⟨_, _, _, _, rfl⟩ | ⟨_, _, _, rfl⟩ | ⟨-, rfl⟩ | ⟨-, rfl⟩ := callee_cases made
  · exact carries_push _ _ _
  · rfl
  · exact carries_push _ _ _
  · rfl

mutual

/-- The commands of an expression leave one word, at any depth. -/
theorem carries_of_expr (expr : Expr) {code : List Command}
    (made : expr.commands runtime scope = .ok code) (depth : Nat) :
    Carries depth code (depth + 1) := by
  cases expr with
  | binary op left right span =>
    obtain ⟨leftCode, rightCode, leftMade, rightMade, rfl⟩ := emitted_binary made
    have leftRun := carries_of_expr left leftMade depth
    have rightRun := carries_of_expr right rightMade (depth + 1)
    exact (leftRun.append rightRun).append (carries_binary op depth)
  | unary op operand span =>
    obtain ⟨operandCode, operandMade, rfl⟩ := emitted_unary made
    exact (carries_of_expr operand operandMade depth).append (carries_unary op depth)
  | string content span =>
    obtain rfl := Except.ok.inj made
    exact carries_string content depth
  | boolean value span =>
    cases value with
    | false =>
      obtain rfl := Except.ok.inj made
      exact carries_push _ _ _
    | true =>
      obtain rfl := Except.ok.inj made
      exact (carries_push _ _ _).append (carries_unary .neg depth)
  | «variable» name span =>
    obtain ⟨entry, resolved, rfl⟩ := emitted_variable made
    exact carries_push _ _ _
  | element array index span =>
    obtain ⟨indexCode, entry, indexMade, resolved, rfl⟩ := emitted_element made
    have indexRun := carries_of_expr index indexMade depth
    have base := carries_push entry.storage.segment entry.ordinal (depth + 1)
    have sum : Carries (depth + 1 + 1) [BinaryOp.add.command runtime] (depth + 1) :=
      carries_binary .add depth
    have fetch := (carries_pop .pointer 1 depth).append (carries_push .that 0 depth)
    exact indexRun.append (base.append (sum.append fetch))
  | call receiver name args span =>
    obtain ⟨callee, argsCode, calleeMade, argsMade, rfl⟩ := emitted_call made
    have argsRun := carries_of_arguments args argsMade (depth + callee.receiver.length)
    rw [Nat.add_assoc, Nat.add_comm callee.receiver.length] at argsRun
    exact ((carries_receiver calleeMade depth).append argsRun).append (carries_call _ _ depth)
  | group inner span => exact carries_of_expr inner made depth
  | integer value span => exact Except.ok.inj made ▸ carries_push _ _ _
  | null span => exact Except.ok.inj made ▸ carries_push _ _ _
  | this span => exact Except.ok.inj made ▸ carries_push _ _ _

/-- The commands of arguments leave one word for each. -/
theorem carries_of_arguments (args : List Expr) {code : List Command}
    (made : argumentCommands runtime scope args = .ok code) (depth : Nat) :
    Carries depth code (depth + args.length) := by
  cases args with
  | nil => exact Except.ok.inj made ▸ rfl
  | cons arg rest =>
    obtain ⟨argCode, restCode, argMade, restMade, rfl⟩ := emitted_arguments made
    have argRun := carries_of_expr arg argMade depth
    have restRun := carries_of_arguments rest restMade (depth + 1)
    rw [Nat.add_assoc, Nat.add_comm 1] at restRun
    exact argRun.append restRun

end

end Expressions

/-! ## Statements -/

section Statements

variable {runtime : RuntimeNames} {scope : Scope}

/-- A label stands at an empty stack. -/
theorem carries_label (name : String) : Carries 0 [.label name] 0 :=
  .single (Nat.zero_le 0) (fun _ wanted => Option.some.inj wanted) rfl

/-- A jump stands at an empty stack. -/
theorem carries_goto (name : String) : Carries 0 [.goto name] 0 :=
  .single (Nat.zero_le 0) (fun _ wanted => Option.some.inj wanted) rfl

/-- A condition is tested and taken from the stack. -/
theorem carries_test (name : String) : Carries 1 [.operate .not, .ifGoto name] 0 :=
  (carries_unary .not 0).append
    (.single (Nat.le_refl 1) (fun _ wanted => Option.some.inj wanted) rfl)

/-- A return stands behind its result. -/
theorem carries_return : Carries 1 [.return] 0 :=
  .single (Nat.le_refl 1) (fun _ wanted => Option.some.inj wanted) rfl

mutual

/-- The commands of a statement start and end with an empty stack. -/
theorem carries_of_stmt (stmt : Stmt) {number next : Nat} {code : List Command}
    (made : stmt.commands runtime scope number = .ok (code, next)) : Carries 0 code 0 := by
  cases stmt with
  | assign target value span =>
    obtain ⟨valueCode, entry, valueMade, resolved, rfl, -⟩ := emitted_assign made
    exact (carries_of_expr value valueMade 0).append (carries_pop _ _ 0)
  | assignElement array index value span =>
    obtain ⟨entry, indexCode, valueCode, resolved, indexMade, valueMade, rfl, -⟩ :=
      emitted_assignElement made
    have base := carries_push entry.storage.segment entry.ordinal 0
    have sum : Carries 2 [BinaryOp.add.command runtime] 1 := carries_binary .add 0
    have address := (base.append (carries_of_expr index indexMade 1)).append sum
    have parked := (carries_pop .temp 0 1).append (carries_pop .pointer 1 0)
    have stored := (carries_push .temp 0 0).append (carries_pop .that 0 0)
    exact (address.append (carries_of_expr value valueMade 1)).append (parked.append stored)
  | branch condition thenBody elseBody span =>
    obtain ⟨conditionCode, thenCode, elseCode, middle, conditionMade, thenMade, elseMade, rfl⟩ :=
      emitted_branch made
    have tested := (carries_of_expr condition conditionMade 0).append
      (carries_test (numberedLabel "IF_FALSE" number))
    have turned := (carries_goto (numberedLabel "IF_END" (number + 1))).append
      (carries_label (numberedLabel "IF_FALSE" number))
    have taken := (tested.append (carries_of_body thenBody thenMade)).append turned
    exact (taken.append (carries_of_body elseBody elseMade)).append (carries_label _)
  | loop condition body span =>
    obtain ⟨conditionCode, bodyCode, conditionMade, bodyMade, rfl⟩ := emitted_loop made
    have entered := (carries_label (numberedLabel "WHILE_TOP" number)).append
      (carries_of_expr condition conditionMade 0)
    have turned := (carries_goto (numberedLabel "WHILE_TOP" number)).append
      (carries_label (numberedLabel "WHILE_END" (number + 1)))
    exact ((entered.append (carries_test _)).append (carries_of_body body bodyMade)).append turned
  | call receiver name args span =>
    obtain ⟨callCode, callMade, rfl, -⟩ := emitted_callStatement made
    exact (carries_of_expr _ callMade 0).append (carries_pop _ _ 0)
  | leave result span =>
    cases result with
    | none =>
      obtain ⟨rfl, -⟩ := Prod.mk.inj (Except.ok.inj made)
      exact (carries_push .constant 0 0).append carries_return
    | some value =>
      obtain ⟨valueCode, valueMade, rfl, -⟩ := emitted_leave made
      exact (carries_of_expr value valueMade 0).append carries_return

/-- The commands of statements start and end with an empty stack. -/
theorem carries_of_body (stmts : List Stmt) {number next : Nat} {code : List Command}
    (made : bodyCommands runtime scope number stmts = .ok (code, next)) : Carries 0 code 0 := by
  cases stmts with
  | nil =>
    obtain ⟨rfl, -⟩ := Prod.mk.inj (Except.ok.inj made)
    rfl
  | cons stmt rest =>
    obtain ⟨stmtCode, restCode, middle, stmtMade, restMade, rfl⟩ := emitted_body made
    exact (carries_of_stmt stmt stmtMade).append (carries_of_body rest restMade)

end

end Statements

/-! ## Subroutines -/

section Subroutines

variable {runtime : RuntimeNames} {known : ClassScope} {number next : Nat}
variable {code program : List Command}

/-- A prologue starts and ends with an empty stack. -/
theorem carries_prologue (runtime : RuntimeNames) (known : ClassScope) (kind : SubroutineKind) :
    Carries 0 (prologue runtime known kind) 0 := by
  cases kind with
  | constructor =>
    exact (carries_push .constant known.fieldCount 0).append
      ((carries_call runtime.alloc 1 0).append (carries_pop .pointer 0 0))
  | method => exact (carries_push .argument 0 0).append (carries_pop .pointer 0 0)
  | function => rfl

/-- The commands of a subroutine start and end with an empty stack. -/
theorem carries_of_subroutine {subroutine : Subroutine}
    (made : subroutine.commands runtime known number = .ok (code, next)) : Carries 0 code 0 := by
  obtain ⟨scope, body, -, bodyMade, rfl⟩ := emitted_subroutine made
  have entered : Carries 0 [.function (ClassScope.qualify known.name subroutine.name.node)
      scope.routine.counts.local] 0 :=
    .single (Nat.zero_le 0) (fun _ wanted => Option.some.inj wanted) rfl
  have rest := (carries_prologue runtime known subroutine.kind).append
    (carries_of_body subroutine.body bodyMade)
  exact entered.append rest

/-- So do the commands of subroutines. -/
theorem carries_of_subroutines {subroutines : List Subroutine}
    (made : subroutineCommands runtime known number subroutines = .ok program) :
    Carries 0 program 0 := by
  induction subroutines generalizing number program with
  | nil =>
    obtain rfl := Except.ok.inj made
    rfl
  | cons subroutine rest ih =>
    obtain ⟨own, later, next, ownMade, laterMade, rfl⟩ := emitted_subroutines made
    exact (carries_of_subroutine ownMade).append (ih laterMade)

/-- Every function of a compiled class has a depth of the stack at each of its places. -/
theorem disciplined_of_commands {cls : Class} (compiled : cls.commands runtime = .ok program)
    (isFunction : IsFunction program code) : ∃ depth, Disciplined code depth := by
  obtain ⟨known, -, made⟩ := bind_eq_ok.mp compiled
  obtain ⟨⟨name, locals, body, rfl, -⟩, front, back, rfl, -⟩ := isFunction
  obtain ⟨middle, run, -⟩ := (carries_of_subroutines made).cut
  obtain ⟨low, -, own⟩ := run.cut
  exact ⟨_, disciplined_of_carries own⟩

/-- The commands of the countdown, which jump forwards and backwards. -/
def countdownCode : List Command :=
  [.function "Main.run" 1, .push .constant 1, .pop .local 0, .label "WHILE_TOP_0",
    .push .local 0, .push .constant 0, .operate .gt, .operate .not, .ifGoto "WHILE_END_1",
    .push .local 0, .push .constant 1, .operate .sub, .pop .local 0, .goto "WHILE_TOP_0",
    .label "WHILE_END_1", .push .local 0, .return]

/-- The countdown has these commands. -/
private theorem countdown_commands : countdownContext.cls.commands {} = .ok countdownCode := by
  simp [countdownContext, countdown, Class.commands, ClassScope.ofClass, ClassScope.addSubroutine,
    subroutineCommands, Subroutine.commands, Scope.ofSubroutine, SymbolTable.declareAll,
    SymbolTable.declare, bodyCommands, Stmt.commands, Scope.resolve, Scope.lookup?,
    SymbolTable.get?, Expr.commands, bind, Except.bind, pure, Except.pure, countdownCode]
  exact ⟨⟨by decide, rfl⟩, by decide⟩

/-- Every place of the countdown has a depth. -/
theorem countdown_disciplined :
    countdownContext.cls.commands {} = .ok countdownCode ∧
      IsFunction countdownCode countdownCode ∧ ∃ depth, Disciplined countdownCode depth := by
  have isFunction : IsFunction countdownCode countdownCode :=
    ⟨⟨_, _, _, rfl, by decide⟩, [], [], rfl, fun next member => by contradiction⟩
  exact ⟨countdown_commands, isFunction, disciplined_of_commands countdown_commands isFunction⟩

end Subroutines

end Jack

end JackToolchain
