import JackToolchain.Jack.Commands
import JackToolchain.Proofs.Outcome

/-!
# What is emitted

The commands of each kind of expression and statement, in terms of the commands of its parts. A
property of all compiled code goes by these cases, so a change of what is emitted for one kind shows
here and in the cases of that kind.
-/
namespace JackToolchain.Jack

open Vm (Command RuntimeNames)

variable {runtime : RuntimeNames} {scope : Scope} {known : ClassScope} {number next : Nat}
variable {code : List Command} {span : Span}

/-! ## Expressions -/

/-- An infix operator comes behind its operands. -/
theorem emitted_binary {op : BinaryOp} {left right : Expr}
    (made : (Expr.binary op left right span).commands runtime scope = .ok code) :
    ∃ leftCode rightCode, left.commands runtime scope = .ok leftCode ∧
      right.commands runtime scope = .ok rightCode ∧
      code = leftCode ++ rightCode ++ [op.command runtime] := by
  obtain ⟨leftCode, leftMade, rest⟩ := bind_eq_ok.mp made
  obtain ⟨rightCode, rightMade, result⟩ := bind_eq_ok.mp rest
  exact ⟨leftCode, rightCode, leftMade, rightMade, (Except.ok.inj result).symm⟩

/-- A sign comes behind its operand. -/
theorem emitted_unary {op : UnaryOp} {operand : Expr}
    (made : (Expr.unary op operand span).commands runtime scope = .ok code) :
    ∃ operandCode, operand.commands runtime scope = .ok operandCode ∧
      code = operandCode ++ [op.command] := by
  obtain ⟨operandCode, operandMade, result⟩ := bind_eq_ok.mp made
  exact ⟨operandCode, operandMade, (Except.ok.inj result).symm⟩

/-- A variable is pushed. -/
theorem emitted_variable {name : String}
    (made : (Expr.variable name span).commands runtime scope = .ok code) :
    ∃ entry, scope.resolve ⟨name, span⟩ = .ok entry ∧ code = [entry.push] := by
  obtain ⟨entry, resolved, result⟩ := bind_eq_ok.mp made
  exact ⟨entry, resolved, (Except.ok.inj result).symm⟩

/-- A variable that must be declared is known. -/
theorem lookup?_of_resolve {name : Name} {entry : Entry}
    (resolved : scope.resolve name = .ok entry) : scope.lookup? name.node = some entry := by
  unfold Scope.resolve at resolved
  split at resolved
  · rename_i known
    rw [known, Except.ok.inj resolved]
  · contradiction

/-- An element of an array is read behind its index. -/
theorem emitted_element {array : Name} {index : Expr}
    (made : (Expr.element array index span).commands runtime scope = .ok code) :
    ∃ indexCode entry, index.commands runtime scope = .ok indexCode ∧
      scope.resolve array = .ok entry ∧
      code = indexCode ++ [entry.push, .operate .add, .pop .pointer 1, .push .that 0] := by
  obtain ⟨indexCode, indexMade, rest⟩ := bind_eq_ok.mp made
  obtain ⟨entry, resolved, result⟩ := bind_eq_ok.mp rest
  exact ⟨indexCode, entry, indexMade, resolved, (Except.ok.inj result).symm⟩

/-- A call means a method of the type of a variable, a subroutine of a class with a name, or a
subroutine of the own class, which is a method on the current object or has no receiver. -/
theorem callee_cases {receiver : Option Name} {name : Name} {callee : Callee}
    (made : scope.callee receiver name = .ok callee) :
    (∃ own entry, receiver = some own ∧ scope.lookup? own.node = some entry ∧
        callee = ⟨[entry.push], ClassScope.qualify entry.type.name name.node⟩) ∨
      (∃ own, receiver = some own ∧ scope.lookup? own.node = none ∧
        callee = ⟨[], ClassScope.qualify own.node name.node⟩) ∨
      (receiver = none ∧
        callee = ⟨[.push .pointer 0], ClassScope.qualify scope.cls.name name.node⟩) ∨
      (receiver = none ∧ callee = ⟨[], ClassScope.qualify scope.cls.name name.node⟩) := by
  unfold Scope.callee at made
  dsimp only at made
  cases receiver with
  | some own =>
    dsimp only at made
    split at made
    · rename_i entry known
      exact .inl ⟨own, entry, rfl, known, (Except.ok.inj made).symm⟩
    · rename_i unknown
      exact .inr (.inl ⟨own, rfl, unknown, (Except.ok.inj made).symm⟩)
  | none =>
    dsimp only at made
    split at made
    · contradiction
    · exact .inr (.inr (.inl ⟨rfl, (Except.ok.inj made).symm⟩))
    · exact .inr (.inr (.inr ⟨rfl, (Except.ok.inj made).symm⟩))

/-- A call comes behind its receiver and its arguments. -/
theorem emitted_call {receiver : Option Name} {name : Name} {args : List Expr}
    (made : (Expr.call receiver name args span).commands runtime scope = .ok code) :
    ∃ callee argsCode, scope.callee receiver name = .ok callee ∧
      argumentCommands runtime scope args = .ok argsCode ∧
      code = callee.receiver ++ argsCode ++ [callee.call args.length] := by
  obtain ⟨callee, calleeMade, rest⟩ := bind_eq_ok.mp made
  obtain ⟨argsCode, argsMade, result⟩ := bind_eq_ok.mp rest
  exact ⟨callee, argsCode, calleeMade, argsMade, (Except.ok.inj result).symm⟩

/-- Arguments come one behind another. -/
theorem emitted_arguments {arg : Expr} {rest : List Expr}
    (made : argumentCommands runtime scope (arg :: rest) = .ok code) :
    ∃ argCode restCode, arg.commands runtime scope = .ok argCode ∧
      argumentCommands runtime scope rest = .ok restCode ∧ code = argCode ++ restCode := by
  obtain ⟨argCode, argMade, others⟩ := bind_eq_ok.mp made
  obtain ⟨restCode, restMade, result⟩ := bind_eq_ok.mp others
  exact ⟨argCode, restCode, argMade, restMade, (Except.ok.inj result).symm⟩

/-! ## Statements -/

/-- An assignment pops its value into the variable. -/
theorem emitted_assign {target : Name} {value : Expr}
    (made : (Stmt.assign target value span).commands runtime scope number = .ok (code, next)) :
    ∃ valueCode entry, value.commands runtime scope = .ok valueCode ∧
      scope.resolve target = .ok entry ∧ code = valueCode ++ [entry.pop] ∧ next = number := by
  obtain ⟨valueCode, valueMade, rest⟩ := bind_eq_ok.mp made
  obtain ⟨entry, resolved, result⟩ := bind_eq_ok.mp rest
  obtain ⟨rfl, rfl⟩ := Prod.mk.inj (Except.ok.inj result)
  exact ⟨valueCode, entry, valueMade, resolved, rfl, rfl⟩

/-- An element of an array is written behind its address and its value. -/
theorem emitted_assignElement {array : Name} {index value : Expr}
    (made : (Stmt.assignElement array index value span).commands runtime scope number =
      .ok (code, next)) :
    ∃ entry indexCode valueCode, scope.resolve array = .ok entry ∧
      index.commands runtime scope = .ok indexCode ∧
      value.commands runtime scope = .ok valueCode ∧
      code = [entry.push] ++ indexCode ++ [.operate .add] ++ valueCode ++
        [.pop .temp 0, .pop .pointer 1, .push .temp 0, .pop .that 0] ∧ next = number := by
  obtain ⟨entry, resolved, rest⟩ := bind_eq_ok.mp made
  obtain ⟨indexCode, indexMade, rest⟩ := bind_eq_ok.mp rest
  obtain ⟨valueCode, valueMade, result⟩ := bind_eq_ok.mp rest
  obtain ⟨rfl, rfl⟩ := Prod.mk.inj (Except.ok.inj result)
  exact ⟨entry, indexCode, valueCode, resolved, indexMade, valueMade, rfl, rfl⟩

/-- A branch takes two numbers, and its bodies the next ones. -/
theorem emitted_branch {condition : Expr} {thenBody elseBody : List Stmt}
    (made : (Stmt.branch condition thenBody elseBody span).commands runtime scope number =
      .ok (code, next)) :
    ∃ conditionCode thenCode elseCode middle,
      condition.commands runtime scope = .ok conditionCode ∧
      bodyCommands runtime scope (number + 2) thenBody = .ok (thenCode, middle) ∧
      bodyCommands runtime scope middle elseBody = .ok (elseCode, next) ∧
      code = branchCommands number conditionCode thenCode elseCode := by
  obtain ⟨conditionCode, conditionMade, rest⟩ := bind_eq_ok.mp made
  obtain ⟨⟨thenCode, middle⟩, thenMade, rest⟩ := bind_eq_ok.mp rest
  obtain ⟨⟨elseCode, last⟩, elseMade, result⟩ := bind_eq_ok.mp rest
  obtain ⟨rfl, rfl⟩ := Prod.mk.inj (Except.ok.inj result)
  exact ⟨conditionCode, thenCode, elseCode, middle, conditionMade, thenMade, elseMade, rfl⟩

/-- A loop takes two numbers, and its body the next ones. -/
theorem emitted_loop {condition : Expr} {body : List Stmt}
    (made : (Stmt.loop condition body span).commands runtime scope number = .ok (code, next)) :
    ∃ conditionCode bodyCode, condition.commands runtime scope = .ok conditionCode ∧
      bodyCommands runtime scope (number + 2) body = .ok (bodyCode, next) ∧
      code = loopCommands number conditionCode bodyCode := by
  obtain ⟨conditionCode, conditionMade, rest⟩ := bind_eq_ok.mp made
  obtain ⟨⟨bodyCode, last⟩, bodyMade, result⟩ := bind_eq_ok.mp rest
  obtain ⟨rfl, rfl⟩ := Prod.mk.inj (Except.ok.inj result)
  exact ⟨conditionCode, bodyCode, conditionMade, bodyMade, rfl⟩

/-- A call whose result is dropped is the call and a pop. -/
theorem emitted_callStatement {receiver : Option Name} {name : Name} {args : List Expr}
    (made : (Stmt.call receiver name args span).commands runtime scope number = .ok (code, next)) :
    ∃ callCode, (Expr.call receiver name args span).commands runtime scope = .ok callCode ∧
      code = callCode ++ [.pop .temp 0] ∧ next = number := by
  obtain ⟨callee, calleeMade, rest⟩ := bind_eq_ok.mp made
  obtain ⟨argsCode, argsMade, result⟩ := bind_eq_ok.mp rest
  obtain ⟨rfl, rfl⟩ := Prod.mk.inj (Except.ok.inj result)
  refine ⟨callee.receiver ++ argsCode ++ [callee.call args.length], ?_, by simp, rfl⟩
  exact bind_eq_ok.mpr ⟨callee, calleeMade, bind_eq_ok.mpr ⟨argsCode, argsMade, rfl⟩⟩

/-- A return comes behind its result. -/
theorem emitted_leave {value : Expr}
    (made : (Stmt.leave (some value) span).commands runtime scope number = .ok (code, next)) :
    ∃ valueCode, value.commands runtime scope = .ok valueCode ∧
      code = valueCode ++ [.return] ∧ next = number := by
  obtain ⟨valueCode, valueMade, result⟩ := bind_eq_ok.mp made
  obtain ⟨rfl, rfl⟩ := Prod.mk.inj (Except.ok.inj result)
  exact ⟨valueCode, valueMade, rfl, rfl⟩

/-- Statements come one behind another. -/
theorem emitted_body {stmt : Stmt} {rest : List Stmt}
    (made : bodyCommands runtime scope number (stmt :: rest) = .ok (code, next)) :
    ∃ own later middle, stmt.commands runtime scope number = .ok (own, middle) ∧
      bodyCommands runtime scope middle rest = .ok (later, next) ∧ code = own ++ later := by
  obtain ⟨⟨own, middle⟩, ownMade, others⟩ := bind_eq_ok.mp made
  obtain ⟨⟨later, last⟩, laterMade, result⟩ := bind_eq_ok.mp others
  obtain ⟨rfl, rfl⟩ := Prod.mk.inj (Except.ok.inj result)
  exact ⟨own, later, middle, ownMade, laterMade, rfl⟩

/-! ## Subroutines -/

/-- A subroutine is an entry, a prologue and a body. -/
theorem emitted_subroutine {subroutine : Subroutine}
    (made : subroutine.commands runtime known number = .ok (code, next)) :
    ∃ scope body, Scope.ofSubroutine known subroutine = .ok scope ∧
      bodyCommands runtime scope number subroutine.body = .ok (body, next) ∧
      code = .function (ClassScope.qualify known.name subroutine.name.node)
          scope.routine.counts.local :: (prologue runtime known subroutine.kind ++ body) := by
  obtain ⟨scope, scopeMade, rest⟩ := bind_eq_ok.mp made
  obtain ⟨⟨body, last⟩, bodyMade, result⟩ := bind_eq_ok.mp rest
  obtain ⟨rfl, rfl⟩ := Prod.mk.inj (Except.ok.inj result)
  exact ⟨scope, body, scopeMade, bodyMade, rfl⟩

/-- Subroutines come one behind another. -/
theorem emitted_subroutines {subroutine : Subroutine} {rest : List Subroutine}
    (made : subroutineCommands runtime known number (subroutine :: rest) = .ok code) :
    ∃ own later next, subroutine.commands runtime known number = .ok (own, next) ∧
      subroutineCommands runtime known next rest = .ok later ∧ code = own ++ later := by
  obtain ⟨⟨own, next⟩, ownMade, others⟩ := bind_eq_ok.mp made
  obtain ⟨later, laterMade, result⟩ := bind_eq_ok.mp others
  exact ⟨own, later, next, ownMade, laterMade, (Except.ok.inj result).symm⟩

end JackToolchain.Jack
