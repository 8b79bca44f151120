import JackToolchain.Proofs.Jack.Labels
import JackToolchain.Proofs.Jack.Meaning
import JackToolchain.Proofs.Machine.Order

/-!
# Expressions on the stack

The commands of an expression push its word and leave what is under it on the stack. They may move
the array cursor and use the temp segment, so only what is compared at a `Point` is kept.
-/
namespace JackToolchain.Jack

open Machine (Word signed_sub_eq_zero)
open Vm (Command truth)
open Vm.Routine (Contains Passes Point Scratch State Store passes_call passes_operate passes_pop
  passes_push step?)

/-- The scope of a compiler sees the declarations of a subroutine and its class. -/
structure Scope.Sees (scope : Scope) (context : Context) : Prop where
  /-- The name of the class. -/
  name : scope.cls.name = context.cls.name.node
  /-- The variables. -/
  entry : ∀ name, scope.lookup? name = context.entry? name
  /-- The subroutines. -/
  kind : ∀ name, scope.cls.subroutines[name]? = context.cls.kindOf? name

section Words

variable {code : List Command} {context : Context} {scratch : Scratch} {this : Word}
variable {position : Nat} {stack : List Word} {store : Store}

/-- A name that the compiler resolves is declared. -/
theorem Scope.Sees.entry_of_resolve {scope : Scope} {name : Name} {entry : Entry}
    (sees : scope.Sees context) (resolved : scope.resolve name = .ok entry) :
    context.entry? name.node = some entry := by
  unfold Scope.resolve at resolved
  rw [← sees.entry]
  split at resolved
  · rename_i known
    rw [known, Except.ok.inj resolved]
  · contradiction

/-- A variable is read where it lives. -/
theorem read?_entry (entry : Entry) (that : Word) (temp : Nat → Word) :
    State.read? ⟨⟨position, stack, store⟩, this, that, temp⟩ entry.storage.segment entry.ordinal =
      some (entry.value this store) := by
  unfold Entry.value
  cases entry.storage <;> rfl

/-- A variable is written where it lives. -/
theorem write?_entry (entry : Entry) (value that : Word) (temp : Nat → Word) :
    State.write? ⟨⟨position, stack, store⟩, this, that, temp⟩ value entry.storage.segment
        entry.ordinal =
      some ⟨⟨position, stack, entry.assign this value store⟩, this, that, temp⟩ := by
  unfold Entry.assign
  cases entry.storage <;> rfl

/-- A variable is pushed. -/
theorem passes_push_entry {entry : Entry} (place : code[position]? = some entry.push) :
    Passes code context.calls scratch this ⟨position, stack, store⟩
      ⟨position + 1, entry.value this store :: stack, store⟩ :=
  passes_push place fun that temp => read?_entry entry that temp

/-- A variable is popped. -/
theorem passes_pop_entry {entry : Entry} {value : Word}
    (place : code[position]? = some entry.pop) :
    Passes code context.calls scratch this ⟨position, value :: stack, store⟩
      ⟨position + 1, stack, entry.assign this value store⟩ :=
  passes_pop place fun that temp => write?_entry entry value that temp

/-- A constant is pushed. -/
theorem passes_push_constant {value : Nat}
    (place : code[position]? = some (.push .constant value)) :
    Passes code context.calls scratch this ⟨position, stack, store⟩
      ⟨position + 1, UInt16.ofNat value :: stack, store⟩ :=
  passes_push place fun _ _ => rfl

/-- The current object is pushed. -/
theorem passes_push_this (place : code[position]? = some (.push .pointer 0)) :
    Passes code context.calls scratch this ⟨position, stack, store⟩
      ⟨position + 1, this :: stack, store⟩ :=
  passes_push place fun _ _ => rfl

/-- A call takes its arguments from the stack and leaves its result there. -/
theorem passes_call_words {name : String} {args : Nat} {words : List Word}
    (place : code[position]? = some (.call name args)) (count : words.length = args) :
    Passes code context.calls scratch this ⟨position, words.reverse ++ stack, store⟩
      ⟨position + 1, (context.call name words store).1 :: stack,
        (context.call name words store).2⟩ :=
  passes_call place count rfl

/-- A call with two arguments. -/
theorem passes_call_two {name : String} {x y : Word}
    (place : code[position]? = some (.call name 2)) :
    Passes code context.calls scratch this ⟨position, y :: x :: stack, store⟩
      ⟨position + 1, (context.call name [x, y] store).1 :: stack,
        (context.call name [x, y] store).2⟩ := by
  have count : [x, y].length = 2 := rfl
  exact passes_call_words place count

/-- A call with one argument. -/
theorem passes_call_one {name : String} {x : Word}
    (place : code[position]? = some (.call name 1)) :
    Passes code context.calls scratch this ⟨position, x :: stack, store⟩
      ⟨position + 1, (context.call name [x] store).1 :: stack,
        (context.call name [x] store).2⟩ := by
  have count : [x].length = 1 := rfl
  exact passes_call_words place count

/-! ## Cells of the heap -/

/-- A cell of the heap is read through the array cursor. -/
theorem passes_fetch {cell : Word}
    (placed : Contains code position [.pop .pointer 1, .push .that 0]) :
    Passes code context.calls scratch this ⟨position, cell :: stack, store⟩
      ⟨position + 2, store.heap cell :: stack, store⟩ := by
  intro that temp
  have first : step? code context.calls scratch
      ⟨⟨position, cell :: stack, store⟩, this, that, temp⟩ =
        some ⟨⟨position + 1, stack, store⟩, this, cell, temp⟩ := by
    simp [step?, placed.head, State.write?]
  have second : step? code context.calls scratch
      ⟨⟨position + 1, stack, store⟩, this, cell, temp⟩ =
        some ⟨⟨position + 2, store.heap cell :: stack, store⟩, this, cell, temp⟩ := by
    simp [step?, placed.tail.head, State.read?]
  exact ⟨cell, temp, .head first (.single second)⟩

/-- A cell of the heap is written through the array cursor, with the word in a temp cell until the
cursor is set. -/
theorem passes_storeAt {cell word : Word}
    (placed : Contains code position
      [.pop .temp 0, .pop .pointer 1, .push .temp 0, .pop .that 0]) :
    Passes code context.calls scratch this ⟨position, word :: cell :: stack, store⟩
      ⟨position + 4, stack, storeAt store cell word⟩ := by
  intro that temp
  let kept := Function.update temp 0 word
  have first : step? code context.calls scratch
      ⟨⟨position, word :: cell :: stack, store⟩, this, that, temp⟩ =
        some ⟨⟨position + 1, cell :: stack, store⟩, this, that, kept⟩ := by
    simp [step?, placed.head, State.write?, kept]
  have second : step? code context.calls scratch
      ⟨⟨position + 1, cell :: stack, store⟩, this, that, kept⟩ =
        some ⟨⟨position + 2, stack, store⟩, this, cell, kept⟩ := by
    simp [step?, placed.tail.head, State.write?]
  have third : step? code context.calls scratch
      ⟨⟨position + 2, stack, store⟩, this, cell, kept⟩ =
        some ⟨⟨position + 3, word :: stack, store⟩, this, cell, kept⟩ := by
    simp [step?, placed.tail.tail.head, State.read?, kept]
  have fourth : step? code context.calls scratch
      ⟨⟨position + 3, word :: stack, store⟩, this, cell, kept⟩ =
        some ⟨⟨position + 4, stack, storeAt store cell word⟩, this, cell, kept⟩ := by
    simp [step?, placed.tail.tail.tail.head, State.write?, storeAt]
  exact ⟨cell, kept, .head first (.head second (.head third (.single fourth)))⟩

/-- An element of an array is pushed when its index is on the stack. -/
theorem passes_element {entry : Entry} {offset : Word}
    (placed : Contains code position
      [entry.push, .operate .add, .pop .pointer 1, .push .that 0]) :
    Passes code context.calls scratch this ⟨position, offset :: stack, store⟩
      ⟨position + 4, store.heap (entry.value this store + offset) :: stack, store⟩ := by
  have base : Passes code context.calls scratch this ⟨position, offset :: stack, store⟩
      ⟨position + 1, entry.value this store :: offset :: stack, store⟩ :=
    passes_push_entry placed.head
  have sum : Passes code context.calls scratch this
      ⟨position + 1, entry.value this store :: offset :: stack, store⟩
      ⟨position + 2, (offset + entry.value this store) :: stack, store⟩ :=
    passes_operate placed.tail.head rfl
  rw [UInt16.add_comm]
  exact base.trans (sum.trans (passes_fetch placed.tail.tail))

/-! ## Operators and strings -/

/-- The command of an infix operator replaces its operands by its word. -/
theorem passes_binary {op : BinaryOp} {x y : Word}
    (place : code[position]? = some (op.command context.runtime)) :
    Passes code context.calls scratch this ⟨position, y :: x :: stack, store⟩
      ⟨position + 1, (op.apply context x y store).1 :: stack, (op.apply context x y store).2⟩ := by
  cases op with
  | mul => exact passes_call_two place
  | div => exact passes_call_two place
  | eq =>
    have same : truth ((x - y).signed = 0) = truth (x = y) := by simp [signed_sub_eq_zero]
    exact passes_operate place (congrArg (fun word => some (word :: stack)) same)
  | _ => exact passes_operate place rfl

/-- The command of a sign replaces its operand by its word. -/
theorem passes_unary {op : UnaryOp} {y : Word} (place : code[position]? = some op.command) :
    Passes code context.calls scratch this ⟨position, y :: stack, store⟩
      ⟨position + 1, op.apply y :: stack, store⟩ := by
  cases op <;> exact passes_operate place rfl

/-- The commands that add a character to a string. -/
def charCommands (runtime : Vm.RuntimeNames) (c : Char) : List Command :=
  [.push .constant c.toNat, .call runtime.stringAppend 2]

/-- The commands that add characters to a string leave the string. -/
theorem passes_appendChars {chars : List Char} {string : Word} {finish : Nat}
    (placed : Contains code position (chars.flatMap (charCommands context.runtime)))
    (there : position + (chars.flatMap (charCommands context.runtime)).length = finish) :
    Passes code context.calls scratch this ⟨position, string :: stack, store⟩
      ⟨finish, (appendChars context string store chars).1 :: stack,
        (appendChars context string store chars).2⟩ := by
  induction chars generalizing position string store with
  | nil =>
    obtain rfl : position = finish := there
    exact .refl
  | cons c rest ih =>
    rw [List.flatMap_cons] at placed there
    rw [List.length_append] at there
    have others := placed.right rfl
    apply (passes_push_constant placed.left.head).trans
    apply (passes_call_two placed.left.tail.head).trans
    exact ih others ((Nat.add_assoc position _ _).trans there)

/-- The commands of a string literal push the string. -/
theorem passes_string {content : String} {finish : Nat}
    (placed : Contains code position (stringCommands context.runtime content))
    (there : position + (stringCommands context.runtime content).length = finish) :
    Passes code context.calls scratch this ⟨position, stack, store⟩
      ⟨finish, (makeString context content store).1 :: stack,
        (makeString context content store).2⟩ := by
  have others : Contains code (position + 2)
      (content.toList.flatMap (charCommands context.runtime)) := placed.right rfl
  apply (passes_push_constant placed.left.head).trans
  apply (passes_call_one placed.left.tail.head).trans
  apply passes_appendChars others
  rw [← there, stringCommands, List.length_append, ← Nat.add_assoc]
  rfl

end Words

/-! ## Expressions -/

section Expressions

variable {code : List Command} {context : Context} {scratch : Scratch} {this : Word}
variable {scope : Scope}

/-- The receiver of a call is pushed, and the call is of the subroutine that the source names. -/
theorem passes_callee {receiver : Option Name} {name : Name} {callee : Callee}
    {words : List Word} {target : String} {position : Nat} {stack : List Word} {store : Store}
    (sees : scope.Sees context) (made : scope.callee receiver name = .ok callee)
    (placed : Contains code position callee.receiver)
    (meant : context.target? this store receiver name = some (words, target)) :
    Passes code context.calls scratch this ⟨position, stack, store⟩
        ⟨position + callee.receiver.length, words.reverse ++ stack, store⟩ ∧
      words.length = callee.receiver.length ∧ callee.name = target := by
  unfold Scope.callee at made
  unfold Context.target? at meant
  dsimp only at made
  rw [sees.name] at made
  cases receiver with
  | some receiver =>
    dsimp only at made meant
    rw [sees.entry] at made
    cases known : context.entry? receiver.node with
    | some entry =>
      rw [known] at made meant
      obtain rfl := Except.ok.inj made
      obtain ⟨rfl, rfl⟩ := Prod.mk.inj (Option.some.inj meant)
      exact ⟨passes_push_entry placed.head, rfl, rfl⟩
    | none =>
      rw [known] at made meant
      obtain rfl := Except.ok.inj made
      obtain ⟨rfl, rfl⟩ := Prod.mk.inj (Option.some.inj meant)
      exact ⟨.refl, rfl, rfl⟩
  | none =>
    dsimp only at made meant
    rw [sees.kind] at made
    cases known : context.cls.kindOf? name.node with
    | none =>
      rw [known] at meant
      contradiction
    | some kind =>
      rw [known] at made meant
      obtain ⟨rfl, rfl⟩ := Prod.mk.inj (Option.some.inj meant)
      cases kind with
      | method =>
        obtain rfl := Except.ok.inj made
        exact ⟨passes_push_this placed.head, rfl, rfl⟩
      | _ =>
        obtain rfl := Except.ok.inj made
        exact ⟨.refl, rfl, rfl⟩

variable (code context scratch this scope) in
/-- The commands of an expression push its word, wherever they are placed. -/
def Pushes (expr : Expr) : Prop :=
  ∀ {part : List Command} {position finish : Nat} {stack : List Word} {store after : Store}
    {word : Word}, expr.commands context.runtime scope = .ok part → Contains code position part →
    position + part.length = finish → expr.eval context this store = some (word, after) →
    Passes code context.calls scratch this ⟨position, stack, store⟩ ⟨finish, word :: stack, after⟩

variable (code context scratch this scope) in
/-- The commands of arguments push their words in order, wherever they are placed. -/
def PushesAll (args : List Expr) : Prop :=
  ∀ {part : List Command} {position finish : Nat} {stack : List Word} {store after : Store}
    {words : List Word}, argumentCommands context.runtime scope args = .ok part →
    Contains code position part → position + part.length = finish →
    evalAll context this store args = some (words, after) →
    Passes code context.calls scratch this ⟨position, stack, store⟩
        ⟨finish, words.reverse ++ stack, after⟩ ∧ words.length = args.length

/-- An infix operator stands behind its operands. -/
theorem pushes_binary {op : BinaryOp} {left right : Expr} {span : Span}
    (first : Pushes code context scratch this scope left)
    (second : Pushes code context scratch this scope right) :
    Pushes code context scratch this scope (.binary op left right span) := by
  intro part position finish stack store after word made placed there meant
  obtain ⟨leftCode, rightCode, leftMade, rightMade, rfl⟩ := emitted_binary made
  obtain ⟨⟨x, middle⟩, leftMeant, rest⟩ := Option.bind_eq_some_iff.mp meant
  obtain ⟨⟨y, last⟩, rightMeant, result⟩ := Option.bind_eq_some_iff.mp rest
  obtain ⟨rfl, rfl⟩ := Prod.mk.inj (Option.some.inj result)
  rw [List.append_assoc] at placed there
  rw [List.length_append, List.length_append, ← Nat.add_assoc, ← Nat.add_assoc] at there
  subst there
  have behind := placed.right rfl
  apply (first leftMade placed.left rfl leftMeant).trans
  apply (second rightMade behind.left rfl rightMeant).trans
  exact passes_binary (behind.right rfl).head

/-- A sign stands behind its operand. -/
theorem pushes_unary {op : UnaryOp} {operand : Expr} {span : Span}
    (own : Pushes code context scratch this scope operand) :
    Pushes code context scratch this scope (.unary op operand span) := by
  intro part position finish stack store after word made placed there meant
  obtain ⟨operandCode, operandMade, rfl⟩ := emitted_unary made
  obtain ⟨⟨y, middle⟩, operandMeant, result⟩ := Option.bind_eq_some_iff.mp meant
  obtain ⟨rfl, rfl⟩ := Prod.mk.inj (Option.some.inj result)
  rw [List.length_append, ← Nat.add_assoc] at there
  subst there
  apply (own operandMade placed.left rfl operandMeant).trans
  exact passes_unary (placed.right rfl).head

/-- An expression with one command and a word that does not depend on the store. -/
theorem pushes_of_command {expr : Expr} {command : Command} {value : Word}
    (emits : expr.commands context.runtime scope = .ok [command])
    (means : ∀ store, expr.eval context this store = some (value, store))
    (passes : ∀ {position : Nat} {stack : List Word} {store : Store},
      code[position]? = some command →
      Passes code context.calls scratch this ⟨position, stack, store⟩
        ⟨position + 1, value :: stack, store⟩) :
    Pushes code context scratch this scope expr := by
  intro part position finish stack store after word made placed there meant
  obtain rfl := Except.ok.inj (emits.symm.trans made)
  obtain ⟨rfl, rfl⟩ := Prod.mk.inj (Option.some.inj ((means store).symm.trans meant))
  subst there
  exact passes placed.head

/-- A string literal. -/
theorem pushes_string {content : String} {span : Span} :
    Pushes code context scratch this scope (.string content span) := by
  intro part position finish stack store after word made placed there meant
  obtain rfl := Except.ok.inj made
  obtain ⟨rfl, rfl⟩ := Prod.mk.inj (Option.some.inj meant)
  exact passes_string placed there

/-- A truth value: the true one is the negated `1`. -/
theorem pushes_boolean {value : Bool} {span : Span} :
    Pushes code context scratch this scope (.boolean value span) := by
  cases value with
  | false => exact pushes_of_command rfl (fun _ => rfl) passes_push_constant
  | true =>
    intro part position finish stack store after word made placed there meant
    obtain rfl := Except.ok.inj made
    obtain ⟨rfl, rfl⟩ := Prod.mk.inj (Option.some.inj meant)
    subst there
    have one : Passes code context.calls scratch this ⟨position, stack, store⟩
        ⟨position + 1, 1 :: stack, store⟩ := passes_push_constant placed.head
    exact one.trans (passes_operate placed.tail.head rfl)

/-- A variable. -/
theorem pushes_variable {name : String} {span : Span} (sees : scope.Sees context) :
    Pushes code context scratch this scope (.variable name span) := by
  intro part position finish stack store after word made placed there meant
  obtain ⟨entry, resolved, rfl⟩ := emitted_variable made
  obtain ⟨known, declared, result⟩ := Option.bind_eq_some_iff.mp meant
  obtain ⟨rfl, rfl⟩ := Prod.mk.inj (Option.some.inj result)
  rw [sees.entry_of_resolve resolved] at declared
  obtain rfl := Option.some.inj declared
  subst there
  exact passes_push_entry placed.head

/-- An element of an array: its index is pushed before the array is. -/
theorem pushes_element {array : Name} {index : Expr} {span : Span} (sees : scope.Sees context)
    (own : Pushes code context scratch this scope index) :
    Pushes code context scratch this scope (.element array index span) := by
  intro part position finish stack store after word made placed there meant
  obtain ⟨indexCode, entry, indexMade, resolved, rfl⟩ := emitted_element made
  obtain ⟨⟨offset, middle⟩, indexMeant, rest⟩ := Option.bind_eq_some_iff.mp meant
  obtain ⟨known, declared, result⟩ := Option.bind_eq_some_iff.mp rest
  obtain ⟨rfl, rfl⟩ := Prod.mk.inj (Option.some.inj result)
  rw [sees.entry_of_resolve resolved] at declared
  obtain rfl := Option.some.inj declared
  rw [List.length_append, ← Nat.add_assoc] at there
  subst there
  apply (own indexMade placed.left rfl indexMeant).trans
  exact passes_element (placed.right rfl)

/-- A call stands behind its receiver and its arguments. -/
theorem pushes_call {receiver : Option Name} {name : Name} {args : List Expr} {span : Span}
    (sees : scope.Sees context) (own : PushesAll code context scratch this scope args) :
    Pushes code context scratch this scope (.call receiver name args span) := by
  intro part position finish stack store after word made placed there meant
  obtain ⟨callee, argsCode, calleeMade, argsMade, rfl⟩ := emitted_call made
  obtain ⟨⟨receiverWords, target⟩, targetMeant, rest⟩ := Option.bind_eq_some_iff.mp meant
  obtain ⟨⟨words, middle⟩, argsMeant, result⟩ := Option.bind_eq_some_iff.mp rest
  obtain ⟨rfl, rfl⟩ := Prod.mk.inj (Option.some.inj result)
  rw [List.append_assoc] at placed there
  rw [List.length_append, List.length_append, ← Nat.add_assoc, ← Nat.add_assoc] at there
  subst there
  have behind := placed.right rfl
  obtain ⟨receiverPassed, receiverCount, rfl⟩ :=
    passes_callee sees calleeMade placed.left targetMeant
  obtain ⟨argsPassed, argsCount⟩ := own argsMade behind.left rfl argsMeant
  have count : (receiverWords ++ words).length = args.length + callee.receiver.length := by
    rw [List.length_append, receiverCount, argsCount, Nat.add_comm]
  apply receiverPassed.trans
  apply argsPassed.trans
  rw [← List.append_assoc, ← List.reverse_append]
  exact passes_call_words (behind.right rfl).head count

/-- No arguments. -/
theorem pushesAll_nil : PushesAll code context scratch this scope [] := by
  intro part position finish stack store after words made placed there meant
  obtain rfl := Except.ok.inj made
  obtain ⟨rfl, rfl⟩ := Prod.mk.inj (Option.some.inj meant)
  subst there
  exact ⟨.refl, rfl⟩

/-- The first argument is pushed before the others. -/
theorem pushesAll_cons {arg : Expr} {rest : List Expr}
    (first : Pushes code context scratch this scope arg)
    (others : PushesAll code context scratch this scope rest) :
    PushesAll code context scratch this scope (arg :: rest) := by
  intro part position finish stack store after words made placed there meant
  obtain ⟨argCode, restCode, argMade, restMade, rfl⟩ := emitted_arguments made
  obtain ⟨⟨word, middle⟩, argMeant, more⟩ := Option.bind_eq_some_iff.mp meant
  obtain ⟨⟨later, last⟩, restMeant, result⟩ := Option.bind_eq_some_iff.mp more
  obtain ⟨rfl, rfl⟩ := Prod.mk.inj (Option.some.inj result)
  rw [List.length_append, ← Nat.add_assoc] at there
  obtain ⟨pushed, count⟩ := others restMade (placed.right rfl) there restMeant
  refine ⟨?_, congrArg (· + 1) count⟩
  rw [List.reverse_cons, List.append_assoc]
  exact (first argMade placed.left rfl argMeant).trans pushed

mutual

/-- Every expression pushes its word. -/
theorem pushes (sees : scope.Sees context) (expr : Expr) :
    Pushes code context scratch this scope expr := by
  cases expr with
  | binary op left right span => exact pushes_binary (pushes sees left) (pushes sees right)
  | unary op operand span => exact pushes_unary (pushes sees operand)
  | integer value span => exact pushes_of_command rfl (fun _ => rfl) passes_push_constant
  | string content span => exact pushes_string
  | boolean value span => exact pushes_boolean
  | null span => exact pushes_of_command rfl (fun _ => rfl) passes_push_constant
  | this span => exact pushes_of_command rfl (fun _ => rfl) passes_push_this
  | «variable» name span => exact pushes_variable sees
  | element array index span => exact pushes_element sees (pushes sees index)
  | call receiver name args span => exact pushes_call sees (pushesAll sees args)
  | group inner span => exact pushes sees inner

/-- All arguments push their words. -/
theorem pushesAll (sees : scope.Sees context) (args : List Expr) :
    PushesAll code context scratch this scope args := by
  cases args with
  | nil => exact pushesAll_nil
  | cons arg rest => exact pushesAll_cons (pushes sees arg) (pushesAll sees rest)

end

/-- The commands of an expression push its word. -/
theorem passes_of_eval (expr : Expr) {part : List Command} {position finish : Nat}
    {stack : List Word} {store after : Store} {word : Word} (sees : scope.Sees context)
    (made : expr.commands context.runtime scope = .ok part)
    (placed : Contains code position part) (there : position + part.length = finish)
    (meant : expr.eval context this store = some (word, after)) :
    Passes code context.calls scratch this ⟨position, stack, store⟩
      ⟨finish, word :: stack, after⟩ :=
  pushes sees expr made placed there meant

end Expressions

end JackToolchain.Jack
