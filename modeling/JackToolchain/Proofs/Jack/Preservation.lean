import JackToolchain.Proofs.Jack.Statements

/-!
# Compiled subroutines

The commands of a subroutine do what the subroutine means: where its body returns, the function that
is compiled for it gets to a return with the same result and the same store. Among the commands of a
class the function is found by its name, which no other subroutine of the class has.
-/
namespace JackToolchain.Jack

open Machine (Word)
open Vm (Command RuntimeNames truth)
open Vm.Routine (Calls Contains Passes Scratch State Steps Store functionCode? functionCode?_append
  functionCode?_cons labels passes_push step?)

/-! ## Functions of a class -/

section Functions

variable {runtime : RuntimeNames} {known : ClassScope} {number next : Nat}
variable {subroutine : Subroutine} {code program : List Command}

/-- A prologue has neither labels nor entries. -/
theorem inner_prologue (runtime : RuntimeNames) (known : ClassScope) (kind : SubroutineKind) :
    (prologue runtime known kind).all Command.isInner = true := by
  cases kind <;> rfl

/-- A function has the labels of its body, and only its first command is an entry. -/
theorem function_of_subroutine
    (made : subroutine.commands runtime known number = .ok (code, next)) :
    ∃ locals rest, Labelled number next rest ∧
      code = .function (ClassScope.qualify known.name subroutine.name.node) locals :: rest := by
  obtain ⟨scope, body, _, bodyMade, rfl⟩ := emitted_subroutine made
  have rest := (Labelled.of_inner (inner_prologue runtime known subroutine.kind)).append
    (labelled_of_body subroutine.body bodyMade)
  exact ⟨_, _, rest, rfl⟩

/-- Names of a class are qualified differently. -/
theorem qualify_inj {cls name other : String}
    (same : ClassScope.qualify cls name = ClassScope.qualify cls other) : name = other := by
  have texts := congrArg String.toList same
  simp only [ClassScope.qualify, String.toList_append] at texts
  exact String.toList_inj.mp (List.append_cancel_left texts)

/-- The commands of subroutines start with an entry, if there are any. -/
theorem entry_of_subroutines {subroutines : List Subroutine}
    (made : subroutineCommands runtime known number subroutines = .ok program) :
    ∀ first ∈ program.head?, first.isEntry = true := by
  cases subroutines with
  | nil =>
    obtain rfl := Except.ok.inj made
    exact fun first member => by contradiction
  | cons subroutine rest =>
    obtain ⟨own, later, next, ownMade, laterMade, rfl⟩ := emitted_subroutines made
    obtain ⟨locals, body, -, rfl⟩ := function_of_subroutine ownMade
    intro first member
    obtain rfl := Option.some.inj member
    rfl

/-- The commands of each subroutine are found under its name. -/
theorem functionCode?_of_mem {subroutines : List Subroutine}
    (made : subroutineCommands runtime known number subroutines = .ok program)
    (distinct : (subroutines.map fun subroutine => subroutine.name.node).Nodup)
    (member : subroutine ∈ subroutines) :
    ∃ code number next, subroutine.commands runtime known number = .ok (code, next) ∧
      functionCode? program (ClassScope.qualify known.name subroutine.name.node) = some code := by
  induction subroutines generalizing number program with
  | nil => contradiction
  | cons first rest ih =>
    obtain ⟨own, later, next, ownMade, laterMade, rfl⟩ := emitted_subroutines made
    obtain ⟨fresh, laterDistinct⟩ := List.nodup_cons.mp distinct
    obtain ⟨locals, body, labelled, rfl⟩ := function_of_subroutine ownMade
    rcases List.mem_cons.mp member with rfl | inRest
    · refine ⟨_, number, next, ownMade, ?_⟩
      exact functionCode?_cons (decide_eq_true rfl) labelled.plain
        (entry_of_subroutines laterMade)
    · obtain ⟨code, start, stop, codeMade, found⟩ := ih laterMade laterDistinct inRest
      refine ⟨code, start, stop, codeMade, ?_⟩
      refine (functionCode?_append ?_).trans found
      refine List.forall_mem_cons.mpr ⟨decide_eq_false fun same => ?_, fun command inside => ?_⟩
      · exact fresh (List.mem_map.mpr ⟨subroutine, inRest, (qualify_inj same).symm⟩)
      · have plain := labelled.plain command inside
        cases command <;> first | rfl | contradiction

end Functions

/-! ## Subroutines -/

section Subroutines

variable {context : Context} {known : ClassScope} {scope : Scope} {code program : List Command}
variable {scratch : Scratch} {current result : Word} {store after : Store}

/-- The scope of a compiled subroutine sees what is declared. -/
theorem sees_of_made (clsMade : ClassScope.ofClass context.cls = .ok known)
    (scopeMade : Scope.ofSubroutine known context.subroutine = .ok scope) :
    scope.Sees context := by
  obtain ⟨name, vars, kinds⟩ := knows_of_ofClass clsMade
  obtain ⟨rfl, routine⟩ := knows_of_ofSubroutine scopeMade
  refine ⟨name, fun wanted => ?_, kinds⟩
  rw [Scope.lookup?, routine.get, vars.get, name]
  rfl

/-- The current object is popped. -/
private theorem step?_pop_this {position : Nat} {value that : Word} {stack : List Word}
    {temp : Nat → Word} {calls : Calls} (place : code[position]? = some (.pop .pointer 0)) :
    step? code calls scratch ⟨⟨position, value :: stack, store⟩, current, that, temp⟩ =
      some ⟨⟨position + 1, stack, store⟩, value, that, temp⟩ := by
  simp [step?, place, State.write?]

/-- The prologue sets the current object, behind the entry that clears the local variables. -/
theorem steps_prologue {position : Nat} (stack : List Word) (that : Word) (temp : Nat → Word)
    (fields : known.fieldCount = declaredCount .field context.cls.declarations)
    (placed : Contains code position
      (prologue context.runtime known context.subroutine.kind)) :
    ∃ that' temp', Steps code context.calls scratch
      ⟨⟨position, stack, store.zeroed context.subroutine.locals.length⟩, current, that, temp⟩
      ⟨⟨position + (prologue context.runtime known context.subroutine.kind).length, stack,
        (context.enter current store).2⟩, (context.enter current store).1, that', temp'⟩ := by
  unfold Context.enter
  cases kind : context.subroutine.kind with
  | constructor =>
    rw [kind] at placed
    rw [← fields]
    let start := store.zeroed context.subroutine.locals.length
    have pushed : Passes code context.calls scratch current ⟨position, stack, start⟩
        ⟨position + 1, UInt16.ofNat known.fieldCount :: stack, start⟩ :=
      passes_push_constant placed.head
    obtain ⟨that', temp', steps⟩ :=
      pushed.trans (passes_call_one placed.tail.head) that temp
    exact ⟨that', temp', steps.tail (step?_pop_this placed.tail.tail.head)⟩
  | method =>
    rw [kind] at placed
    let start := store.zeroed context.subroutine.locals.length
    have pushed : Passes code context.calls scratch current ⟨position, stack, start⟩
        ⟨position + 1, start.arguments 0 :: stack, start⟩ :=
      passes_push placed.head fun _ _ => rfl
    obtain ⟨that', temp', steps⟩ := pushed that temp
    exact ⟨that', temp', steps.tail (step?_pop_this placed.tail.head)⟩
  | function => exact ⟨that, temp, .refl⟩

/-- Where a subroutine returns, the function that is compiled for it gets to a return with the same
result on the stack and the same store. It may start on any stack, with any array cursor and any
temp segment, and calls may leave anything in the temp segment. -/
theorem steps_of_returns (compiled : context.cls.commands context.runtime = .ok program)
    (member : context.subroutine ∈ context.cls.subroutines)
    (returns : context.Returns current store result after) (stack : List Word) (that : Word)
    (temp : Nat → Word) :
    ∃ code, functionCode? program (ClassScope.qualify context.cls.name.node
        context.subroutine.name.node) = some code ∧
      ∃ last, Steps code context.calls scratch ⟨⟨0, stack, store⟩, current, that, temp⟩ last ∧
        code[last.position]? = some .return ∧ last.stack = result :: stack ∧
        last.store = after := by
  obtain ⟨known, clsMade, subroutinesMade⟩ := bind_eq_ok.mp compiled
  obtain ⟨name, vars, -⟩ := knows_of_ofClass clsMade
  obtain ⟨code, number, next, codeMade, found⟩ :=
    functionCode?_of_mem subroutinesMade (distinct_of_ofClass clsMade) member
  obtain ⟨scope, body, scopeMade, bodyMade, rfl⟩ := emitted_subroutine codeMade
  have sees := sees_of_made clsMade scopeMade
  have locals : scope.routine.counts.local = context.subroutine.locals.length := by
    obtain ⟨-, routine⟩ := knows_of_ofSubroutine scopeMade
    have count := routine.count .local
    rwa [declaredCount_subroutine] at count
  have fields : known.fieldCount = declaredCount .field context.cls.declarations :=
    vars.count .field
  obtain ⟨_, rest, labelled, same⟩ := function_of_subroutine codeMade
  obtain ⟨-, rfl⟩ := List.cons_eq_cons.mp same
  rw [locals, name] at found
  refine ⟨_, found, ?_⟩
  let entry := Command.function (ClassScope.qualify context.cls.name.node
    context.subroutine.name.node) context.subroutine.locals.length
  let rest := prologue context.runtime known context.subroutine.kind ++ body
  have placed : Contains (entry :: rest) 1 rest := .of_cons entry rest
  have distinct : (labels (entry :: rest)).Nodup := labelled.numbered.distinct
  have executed : Executes context (context.enter current store).1 context.subroutine.body
      (context.enter current store).2 (.returned result after) := returns
  obtain ⟨that₁, temp₁, begun⟩ := steps_prologue stack that temp fields placed.left
  obtain ⟨position, place, passed⟩ :=
    achieves_of_executes sees distinct executed bodyMade _ (placed.right rfl)
  obtain ⟨that₂, temp₂, finished⟩ := passed that₁ temp₁
  exact ⟨_, .head rfl (begun.trans finished), place, rfl, rfl⟩

end Subroutines

/-! ## A countdown -/

/-- A function that counts a local variable down to zero in a loop. -/
def countdown : Subroutine where
  kind := .function
  result := .int
  name := ⟨"run", .nowhere⟩
  params := []
  locals := [⟨.int, ⟨"n", .nowhere⟩⟩]
  body :=
    [.assign ⟨"n", .nowhere⟩ (.integer 1 .nowhere) .nowhere,
      .loop (.binary .gt (.variable "n" .nowhere) (.integer 0 .nowhere) .nowhere)
        [.assign ⟨"n", .nowhere⟩
          (.binary .sub (.variable "n" .nowhere) (.integer 1 .nowhere) .nowhere) .nowhere]
        .nowhere,
      .leave (some (.variable "n" .nowhere)) .nowhere]

/-- The function in a class without variables, where calls have no effect. -/
def countdownContext : Context where
  runtime := {}
  cls := ⟨⟨"Main", .nowhere⟩, [], [countdown]⟩
  subroutine := countdown
  calls := fun _ _ shared => (0, shared)

/-- The local variable of the function. -/
def countdownEntry : Entry := ⟨.int, .local, 0⟩

/-- The class of the countdown has commands. -/
private theorem countdown_compiles :
    ∃ program, countdownContext.cls.commands countdownContext.runtime = .ok program := by
  simp [countdownContext, countdown, Class.commands, ClassScope.ofClass, ClassScope.addSubroutine,
    subroutineCommands, Subroutine.commands, Scope.ofSubroutine, SymbolTable.declareAll,
    SymbolTable.declare, bodyCommands, Stmt.commands, Scope.resolve, Scope.lookup?,
    SymbolTable.get?, Expr.commands, bind, Except.bind, pure, Except.pure]

/-- The countdown takes one turn of its loop and returns zero. -/
private theorem countdown_returns (store : Store) :
    ∃ after, countdownContext.Returns 0 store 0 after := by
  have entry : countdownContext.entry? "n" = some countdownEntry := rfl
  let start := store.zeroed 1
  let one := countdownEntry.assign 0 1 start
  let zero := countdownEntry.assign 0 0 one
  let test : Expr := .binary .gt (.variable "n" .nowhere) (.integer 0 .nowhere) .nowhere
  let less : Expr := .binary .sub (.variable "n" .nowhere) (.integer 1 .nowhere) .nowhere
  have first : (Expr.integer 1 .nowhere).eval countdownContext 0 start = some (1, start) := rfl
  have positive : truth (0 < ((1 : Word) - 0).signed) = truth true := by decide
  have goesOn : test.eval countdownContext 0 one = some (truth true, one) :=
    congrArg (fun word => some (word, one)) positive
  have gone : (1 : Word) - 1 = 0 := by decide
  have counts : less.eval countdownContext 0 one = some (0, one) :=
    congrArg (fun word => some (word, one)) gone
  have nothing : truth (0 < ((0 : Word) - 0).signed) = truth false := by decide
  have stops : test.eval countdownContext 0 zero = some (truth false, zero) :=
    congrArg (fun word => some (word, zero)) nothing
  have result : (Expr.variable "n" .nowhere).eval countdownContext 0 zero = some (0, zero) := rfl
  exact ⟨zero, .assign first entry (.loopAgain goesOn (.assign counts entry .done)
    (.loopEnd stops (by decide) (.leaveWith result)))⟩

/-- The function that is compiled for the countdown returns zero. -/
theorem countdown_steps :
    ∃ program code, countdownContext.cls.commands countdownContext.runtime = .ok program ∧
      functionCode? program "Main.run" = some code ∧
      ∃ last, Steps code countdownContext.calls (fun _ _ _ temp => temp)
          ⟨⟨0, [], ⟨⟨fun _ => 0, fun _ => 0⟩, fun _ => 0, fun _ => 0⟩⟩, 0, 0, fun _ => 0⟩ last ∧
        code[last.position]? = some .return ∧ last.stack = [0] := by
  obtain ⟨program, compiled⟩ := countdown_compiles
  obtain ⟨after, returns⟩ := countdown_returns _
  obtain ⟨code, found, last, steps, place, stack, -⟩ :=
    steps_of_returns compiled List.mem_cons_self returns [] 0 fun _ => 0
  exact ⟨program, code, compiled, found, last, steps, place, stack⟩

end JackToolchain.Jack
