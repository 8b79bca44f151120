import JackToolchain.Jack.Tree
import JackToolchain.Proofs.Jack.Scope
import JackToolchain.Proofs.Vm.Routine

/-!
# What subroutines mean

The meaning of a subroutine from its tree, without regard to the commands that a compiler makes of
it. Variables live where their declarations put them, operands and arguments are computed from left
to right, and arithmetic is that of 16-bit words. Other subroutines and the run-time routines are
not executed: they give fixed answers to calls.
-/
namespace JackToolchain.Jack

open Machine (Word)
open Vm (RuntimeNames truth)
open Vm.Routine (Calls Store)

/-- What the meaning of a subroutine depends on. -/
structure Context where
  /-- The run-time routines. -/
  runtime : RuntimeNames
  /-- The class of the subroutine. -/
  cls : Class
  /-- The subroutine. -/
  subroutine : Subroutine
  /-- The answers to calls. -/
  calls : Calls

namespace Context

variable (context : Context)

/-- Calls a subroutine or a run-time routine. -/
def call (name : String) (args : List Word) (store : Store) : Word × Store :=
  let (result, shared) := context.calls name args store.toShared
  (result, { store with toShared := shared })

/-- What is declared of a name: the subroutine hides the class. -/
def entry? (name : String) : Option Entry :=
  (declared? (context.subroutine.declarations context.cls.name.node) name).or
    (declared? context.cls.declarations name)

end Context

/-! ## Variables -/

/-- The word of a variable; the fields are those of the current object. -/
def Entry.value (entry : Entry) (this : Word) (store : Store) : Word :=
  match entry.storage with
  | .static => store.statics entry.ordinal
  | .field => store.heap (this + UInt16.ofNat entry.ordinal)
  | .argument => store.arguments entry.ordinal
  | .local => store.locals entry.ordinal

/-- The store with a word in a cell of the heap. -/
def storeAt (store : Store) (cell value : Word) : Store :=
  { store with heap := Function.update store.heap cell value }

/-- The store with a word in a variable. -/
def Entry.assign (entry : Entry) (this value : Word) (store : Store) : Store :=
  match entry.storage with
  | .static => { store with statics := Function.update store.statics entry.ordinal value }
  | .field => storeAt store (this + UInt16.ofNat entry.ordinal) value
  | .argument =>
    { store with arguments := Function.update store.arguments entry.ordinal value }
  | .local => { store with locals := Function.update store.locals entry.ordinal value }

/-! ## Expressions -/

/-- The word of an infix operator. Products and quotients are those of the run-time library. An
order is decided by the sign of the difference, which is that of 16-bit words. -/
def BinaryOp.apply (context : Context) (x y : Word) (store : Store) : BinaryOp → Word × Store
  | .add => (x + y, store)
  | .sub => (x - y, store)
  | .mul => context.call context.runtime.multiply [x, y] store
  | .div => context.call context.runtime.divide [x, y] store
  | .and => (x &&& y, store)
  | .or => (x ||| y, store)
  | .lt => (truth ((x - y).signed < 0), store)
  | .gt => (truth (0 < (x - y).signed), store)
  | .eq => (truth (x = y), store)

/-- The word of a sign. -/
def UnaryOp.apply (y : Word) : UnaryOp → Word
  | .neg => -y
  | .not => ~~~y

/-- Adds characters to a string one by one. -/
def appendChars (context : Context) (string : Word) (store : Store) : List Char → Word × Store
  | [] => (string, store)
  | c :: rest =>
    let (string, store) :=
      context.call context.runtime.stringAppend [string, UInt16.ofNat c.toNat] store
    appendChars context string store rest

/-- Makes a string. -/
def makeString (context : Context) (content : String) (store : Store) : Word × Store :=
  let (string, store) :=
    context.call context.runtime.stringNew [UInt16.ofNat content.length] store
  appendChars context string store content.toList

/-- The receiver that a call hands over, if there is one, and the name of the subroutine that it
calls. A variable is the receiver of a method of its type, and any other name is a class. Without a
name the class itself has the subroutine, and only its methods have a receiver. -/
def Context.target? (context : Context) (this : Word) (store : Store) (receiver : Option Name)
    (name : Name) : Option (List Word × String) :=
  match receiver with
  | some receiver =>
    match context.entry? receiver.node with
    | some entry =>
      some ([entry.value this store], ClassScope.qualify entry.type.name name.node)
    | none => some ([], ClassScope.qualify receiver.node name.node)
  | none =>
    (context.cls.kindOf? name.node).map fun kind =>
      (if kind = .method then [this] else [],
        ClassScope.qualify context.cls.name.node name.node)

mutual

/-- The word of an expression and the store behind it. There is none if a name is not declared. -/
def Expr.eval (context : Context) (this : Word) (store : Store) : Expr → Option (Word × Store)
  | .binary op left right _ => do
    let (x, store) ← left.eval context this store
    let (y, store) ← right.eval context this store
    return op.apply context x y store
  | .unary op operand _ => do
    let (y, store) ← operand.eval context this store
    return (op.apply y, store)
  | .integer value _ => return (UInt16.ofNat value, store)
  | .string content _ => return makeString context content store
  | .boolean value _ => return (truth value, store)
  | .null _ => return (0, store)
  | .this _ => return (this, store)
  | .variable name _ => do
    let entry ← context.entry? name
    return (entry.value this store, store)
  | .element array index _ => do
    let (offset, store) ← index.eval context this store
    let entry ← context.entry? array.node
    return (store.heap (entry.value this store + offset), store)
  | .call receiver name args _ => do
    let (receiver, callee) ← context.target? this store receiver name
    let (words, store) ← evalAll context this store args
    return context.call callee (receiver ++ words) store
  | .group inner _ => inner.eval context this store

/-- The words of arguments and the store behind them. -/
def evalAll (context : Context) (this : Word) (store : Store) :
    List Expr → Option (List Word × Store)
  | [] => return ([], store)
  | arg :: rest => do
    let (word, store) ← arg.eval context this store
    let (words, store) ← evalAll context this store rest
    return (word :: words, store)

end

/-! ## Statements -/

/-- How statements end. -/
inductive Ending where
  /-- The statement behind them is next. -/
  | next (store : Store)
  /-- The subroutine returns. -/
  | returned (result : Word) (store : Store)

/-- The statements that a branch executes. -/
def chosen (condition : Word) (thenBody elseBody : List Stmt) : List Stmt :=
  if condition = truth true then thenBody else elseBody

/-- Executing statements one after another ends in this way. -/
inductive Executes (context : Context) (this : Word) : List Stmt → Store → Ending → Prop
  | done {store} : Executes context this [] store (.next store)
  | assign {target value span rest store after entry word ending} :
      value.eval context this store = some (word, after) →
      context.entry? target.node = some entry →
      Executes context this rest (entry.assign this word after) ending →
      Executes context this (.assign target value span :: rest) store ending
  | assignElement {array index value span rest store second third entry offset word ending} :
      context.entry? array.node = some entry →
      index.eval context this store = some (offset, second) →
      value.eval context this second = some (word, third) →
      Executes context this rest (storeAt third (entry.value this store + offset) word) ending →
      Executes context this (.assignElement array index value span :: rest) store ending
  | branch {condition thenBody elseBody span rest store second third word ending} :
      condition.eval context this store = some (word, second) →
      Executes context this (chosen word thenBody elseBody) second (.next third) →
      Executes context this rest third ending →
      Executes context this (.branch condition thenBody elseBody span :: rest) store ending
  | branchReturn {condition thenBody elseBody span rest store second third word result} :
      condition.eval context this store = some (word, second) →
      Executes context this (chosen word thenBody elseBody) second (.returned result third) →
      Executes context this (.branch condition thenBody elseBody span :: rest) store
        (.returned result third)
  | loopEnd {condition body span rest store second word ending} :
      condition.eval context this store = some (word, second) →
      word ≠ truth true →
      Executes context this rest second ending →
      Executes context this (.loop condition body span :: rest) store ending
  | loopAgain {condition body span rest store second third ending} :
      condition.eval context this store = some (truth true, second) →
      Executes context this body second (.next third) →
      Executes context this (.loop condition body span :: rest) third ending →
      Executes context this (.loop condition body span :: rest) store ending
  | loopReturn {condition body span rest store second third result} :
      condition.eval context this store = some (truth true, second) →
      Executes context this body second (.returned result third) →
      Executes context this (.loop condition body span :: rest) store (.returned result third)
  | call {receiver name args span rest store after word ending} :
      (Expr.call receiver name args span).eval context this store = some (word, after) →
      Executes context this rest after ending →
      Executes context this (.call receiver name args span :: rest) store ending
  | leave {span rest store} :
      Executes context this (.leave none span :: rest) store (.returned 0 store)
  | leaveWith {value span rest store after word} :
      value.eval context this store = some (word, after) →
      Executes context this (.leave (some value) span :: rest) store (.returned word after)

/-! ## Subroutines -/

/-- The current object and the store at the start of the body: the local variables are zero, a
constructor reserves its object, and the object of a method is its first argument. -/
def Context.enter (context : Context) (current : Word) (store : Store) : Word × Store :=
  let store := store.zeroed context.subroutine.locals.length
  match context.subroutine.kind with
  | .constructor =>
    let size := declaredCount .field context.cls.declarations
    context.call context.runtime.alloc [UInt16.ofNat size] store
  | .method => (store.arguments 0, store)
  | .function => (current, store)

/-- The subroutine, called with the store and the current object of its caller, returns. -/
def Context.Returns (context : Context) (current : Word) (store : Store) (result : Word)
    (after : Store) : Prop :=
  let (this, store) := context.enter current store
  Executes context this context.subroutine.body store (.returned result after)

end JackToolchain.Jack
