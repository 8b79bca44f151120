import JackToolchain.Jack.Grammar
import JackToolchain.Jack.Scope
import JackToolchain.Vm.Layout

/-!
# Commands of a class

The stack-machine commands that compute what a class says. The commands of an expression leave
one word on the stack and those of a statement none. Operands and arguments are computed from
left to right.

Labels are numbered through the class; the commands of a statement come with the next free
number.
-/
namespace JackToolchain.Jack

open Vm (Command RuntimeNames)

/-- Pushes a variable. -/
def Entry.push (entry : Entry) : Command := .push entry.storage.segment entry.ordinal

/-- Pops into a variable. -/
def Entry.pop (entry : Entry) : Command := .pop entry.storage.segment entry.ordinal

/-- The command of an infix operator; the machine leaves products and quotients to the run-time
library. -/
def BinaryOp.command (runtime : RuntimeNames) : BinaryOp → Command
  | .add => .operate .add
  | .sub => .operate .sub
  | .mul => .call runtime.multiply 2
  | .div => .call runtime.divide 2
  | .and => .operate .and
  | .or => .operate .or
  | .lt => .operate .lt
  | .gt => .operate .gt
  | .eq => .operate .eq

/-- The command of a sign. -/
def UnaryOp.command : UnaryOp → Command
  | .neg => .operate .neg
  | .not => .operate .not

/-- Makes a string and adds its characters one by one; every call leaves the string. -/
def stringCommands (runtime : RuntimeNames) (content : String) : List Command :=
  [.push .constant content.length, .call runtime.stringNew 1] ++
    content.toList.flatMap fun c => [.push .constant c.toNat, .call runtime.stringAppend 2]

/-- The subroutine that a call runs. -/
structure Callee where
  /-- Pushes the receiver, if there is one. -/
  receiver : List Command
  /-- The name of the subroutine outside its class. -/
  name : String

/-- The call itself, once the receiver and so many arguments are on the stack. -/
def Callee.call (callee : Callee) (args : Nat) : Command :=
  .call callee.name (args + callee.receiver.length)

/-- The subroutine that a call means. A receiver that names a variable is passed to a method of
the variable's type, and any other receiver is a class. Without a receiver the class itself
declares the subroutine, and a method is run on the current object. -/
def Scope.callee (scope : Scope) (receiver : Option Name) (name : Name) : Outcome Callee :=
  match receiver with
  | some receiver =>
    match scope.lookup? receiver.node with
    | some entry => .ok ⟨[entry.push], ClassScope.qualify entry.type.name name.node⟩
    | none => .ok ⟨[], ClassScope.qualify receiver.node name.node⟩
  | none =>
    let qualified := ClassScope.qualify scope.cls.name name.node
    match scope.cls.subroutines[name.node]? with
    | none => .error ⟨.unknownSubroutine scope.cls.name name.node, name.span⟩
    | some .method => .ok ⟨[.push .pointer 0], qualified⟩
    | some _ => .ok ⟨[], qualified⟩

mutual

/-- The commands of an expression. -/
def Expr.commands (runtime : RuntimeNames) (scope : Scope) : Expr → Outcome (List Command)
  | .binary op left right _ => do
    let left ← left.commands runtime scope
    let right ← right.commands runtime scope
    return left ++ right ++ [op.command runtime]
  | .unary op operand _ => do
    let operand ← operand.commands runtime scope
    return operand ++ [op.command]
  | .integer value _ => return [.push .constant value]
  | .string content _ => return stringCommands runtime content
  | .boolean true _ => return [.push .constant 1, .operate .neg]
  | .boolean false _ | .null _ => return [.push .constant 0]
  | .this _ => return [.push .pointer 0]
  | .variable name span => do
    let entry ← scope.resolve ⟨name, span⟩
    return [entry.push]
  | .element array index _ => do
    let index ← index.commands runtime scope
    let entry ← scope.resolve array
    return index ++ [entry.push, .operate .add, .pop .pointer 1, .push .that 0]
  | .call receiver name args _ => do
    let callee ← scope.callee receiver name
    let code ← argumentCommands runtime scope args
    return callee.receiver ++ code ++ [callee.call args.length]
  | .group inner _ => inner.commands runtime scope

/-- The commands of arguments. -/
def argumentCommands (runtime : RuntimeNames) (scope : Scope) :
    List Expr → Outcome (List Command)
  | [] => return []
  | arg :: rest => do
    let arg ← arg.commands runtime scope
    let rest ← argumentCommands runtime scope rest
    return arg ++ rest

end

/-- The label with a number. -/
def numberedLabel (stem : String) (number : Nat) : String := stem ++ "_" ++ number.repr

/-- The commands of a branch whose labels have the numbers `number` and `number + 1`. -/
def branchCommands (number : Nat) (condition thenBody elseBody : List Command) : List Command :=
  let otherwise := numberedLabel "IF_FALSE" number
  let done := numberedLabel "IF_END" (number + 1)
  condition ++ [.operate .not, .ifGoto otherwise] ++ thenBody ++
    [.goto done, .label otherwise] ++ elseBody ++ [.label done]

/-- The commands of a loop whose labels have the numbers `number` and `number + 1`. -/
def loopCommands (number : Nat) (condition body : List Command) : List Command :=
  let top := numberedLabel "WHILE_TOP" number
  let done := numberedLabel "WHILE_END" (number + 1)
  [.label top] ++ condition ++ [.operate .not, .ifGoto done] ++ body ++ [.goto top, .label done]

mutual

/-- The commands of a statement whose labels are numbered from `number` on, and the next
number. The value of an array element is kept in a temp cell while its address is set, because
computing the value may set another address. -/
def Stmt.commands (runtime : RuntimeNames) (scope : Scope) (number : Nat) :
    Stmt → Outcome (List Command × Nat)
  | .assign target value _ => do
    let value ← value.commands runtime scope
    let entry ← scope.resolve target
    return (value ++ [entry.pop], number)
  | .assignElement array index value _ => do
    let entry ← scope.resolve array
    let index ← index.commands runtime scope
    let value ← value.commands runtime scope
    return ([entry.push] ++ index ++ [.operate .add] ++ value ++
      [.pop .temp 0, .pop .pointer 1, .push .temp 0, .pop .that 0], number)
  | .branch condition thenBody elseBody _ => do
    let condition ← condition.commands runtime scope
    let (thenBody, next) ← bodyCommands runtime scope (number + 2) thenBody
    let (elseBody, next) ← bodyCommands runtime scope next elseBody
    return (branchCommands number condition thenBody elseBody, next)
  | .loop condition body _ => do
    let condition ← condition.commands runtime scope
    let (body, next) ← bodyCommands runtime scope (number + 2) body
    return (loopCommands number condition body, next)
  | .call receiver name args _ => do
    let callee ← scope.callee receiver name
    let code ← argumentCommands runtime scope args
    return (callee.receiver ++ code ++ [callee.call args.length, .pop .temp 0], number)
  | .leave none _ => return ([.push .constant 0, .return], number)
  | .leave (some result) _ => do
    let result ← result.commands runtime scope
    return (result ++ [.return], number)

/-- The commands of statements, and the next number for labels. -/
def bodyCommands (runtime : RuntimeNames) (scope : Scope) (number : Nat) :
    List Stmt → Outcome (List Command × Nat)
  | [] => return ([], number)
  | stmt :: rest => do
    let (code, next) ← stmt.commands runtime scope number
    let (others, next) ← bodyCommands runtime scope next rest
    return (code ++ others, next)

end

/-- What a subroutine does before its body: a constructor reserves its object, and both a
constructor and a method set the current object. -/
def prologue (runtime : RuntimeNames) (cls : ClassScope) : SubroutineKind → List Command
  | .constructor =>
    [.push .constant cls.fieldCount, .call runtime.alloc 1, .pop .pointer 0]
  | .method => [.push .argument 0, .pop .pointer 0]
  | .function => []

/-- The commands of a subroutine, and the next number for labels. -/
def Subroutine.commands (runtime : RuntimeNames) (cls : ClassScope) (number : Nat)
    (subroutine : Subroutine) : Outcome (List Command × Nat) := do
  let scope ← Scope.ofSubroutine cls subroutine
  let (body, next) ← bodyCommands runtime scope number subroutine.body
  let name := ClassScope.qualify cls.name subroutine.name.node
  return ([.function name scope.routine.counts.local] ++ prologue runtime cls subroutine.kind ++
    body, next)

/-- The commands of subroutines whose labels are numbered from `number` on. -/
def subroutineCommands (runtime : RuntimeNames) (cls : ClassScope) (number : Nat) :
    List Subroutine → Outcome (List Command)
  | [] => return []
  | subroutine :: rest => do
    let (code, next) ← subroutine.commands runtime cls number
    let others ← subroutineCommands runtime cls next rest
    return code ++ others

/-- The commands of a class. Its scope is made before any subroutine is looked at. -/
def Class.commands (runtime : RuntimeNames) (cls : Class) : Outcome (List Command) := do
  let scope ← ClassScope.ofClass cls
  subroutineCommands runtime scope 0 cls.subroutines

/-- The commands of the class that a source text holds. -/
def compile (runtime : RuntimeNames) (source : String) : Outcome (List Command) := do
  (← readClass source).commands runtime

end JackToolchain.Jack
