import JackToolchain.Proofs.Vm.Program
import Mathlib.Logic.Function.Basic
import Mathlib.Logic.Relation

/-!
# Single routines

One function of the stack machine by itself, on its own commands. The stack is a list of words and
the segments are maps from indices to words; the segments `this` and `that` are parts of a heap. The
other functions are not executed: a call is answered at once, and the answer depends on the name,
the arguments and what the functions share. A call may leave anything in the temp segment.
-/
namespace JackToolchain.Vm.Routine

open Machine (Word)

/-- What all functions read and write. -/
structure Shared where
  /-- The memory of objects, strings and arrays. -/
  heap : Word → Word
  /-- The static variables. -/
  statics : Nat → Word

/-- What one function reads and writes, besides its stack. -/
structure Store extends Shared where
  /-- Its arguments. -/
  arguments : Nat → Word
  /-- Its local variables. -/
  locals : Nat → Word

/-- The answers to calls: the result, and what has become of what the functions share. -/
abbrev Calls := String → List Word → Shared → Word × Shared

/-- What calls leave in the temp segment. -/
abbrev Scratch := String → List Word → Shared → (Nat → Word) → Nat → Word

/-- A place in a function, with what its commands are to achieve there. -/
structure Point where
  /-- The number of the next command. -/
  position : Nat
  /-- The stack, with its top first. -/
  stack : List Word
  /-- The store. -/
  store : Store

/-- A state of a function. -/
structure State extends Point where
  /-- The current object. -/
  this : Word
  /-- The array cursor. -/
  that : Word
  /-- The temp segment. -/
  temp : Nat → Word

/-! ## Execution -/

/-- The store with zeros in the first local variables. -/
def Store.zeroed (store : Store) (locals : Nat) : Store :=
  { store with locals := fun index => if index < locals then 0 else store.locals index }

/-- The word of an index of a segment, if the segment has it. -/
def State.read? (state : State) : Segment → Nat → Option Word
  | .local, index => some (state.store.locals index)
  | .argument, index => some (state.store.arguments index)
  | .this, index => some (state.store.heap (state.this + UInt16.ofNat index))
  | .that, index => some (state.store.heap (state.that + UInt16.ofNat index))
  | .constant, index => some (UInt16.ofNat index)
  | .static, index => some (state.store.statics index)
  | .pointer, 0 => some state.this
  | .pointer, 1 => some state.that
  | .pointer, _ => none
  | .temp, index => some (state.temp index)

/-- The state with a word at an index of a segment, if the segment can hold it. -/
def State.write? (state : State) (value : Word) : Segment → Nat → Option State
  | .local, index =>
    some { state with store.locals := Function.update state.store.locals index value }
  | .argument, index =>
    some { state with store.arguments := Function.update state.store.arguments index value }
  | .this, index =>
    let cell := state.this + UInt16.ofNat index
    some { state with store.heap := Function.update state.store.heap cell value }
  | .that, index =>
    let cell := state.that + UInt16.ofNat index
    some { state with store.heap := Function.update state.store.heap cell value }
  | .constant, _ => none
  | .static, index =>
    some { state with store.statics := Function.update state.store.statics index value }
  | .pointer, 0 => some { state with this := value }
  | .pointer, 1 => some { state with that := value }
  | .pointer, _ => none
  | .temp, index => some { state with temp := Function.update state.temp index value }

/-- The words that an operation takes from a stack and the one that it puts there. -/
def operate? (operation : Operation) : List Word → Option (List Word)
  | y :: rest =>
    if operation.isUnary then some (operation.result 0 y :: rest)
    else
      match rest with
      | x :: rest => some (operation.result x y :: rest)
      | [] => none
  | [] => none

/-- The place of a label. -/
def labelPosition? (code : List Command) (name : String) : Option Nat :=
  code.findIdx? fun command => command = .label name

/-- Executes the next command of a function. A function ends at a return. -/
def step? (code : List Command) (calls : Calls) (scratch : Scratch) (state : State) :
    Option State := do
  let command ← code[state.position]?
  let next := state.position + 1
  match command, state.stack with
  | .operate operation, stack =>
    return { state with position := next, stack := ← operate? operation stack }
  | .push segment index, stack =>
    return { state with position := next, stack := (← state.read? segment index) :: stack }
  | .pop segment index, value :: rest =>
    State.write? { state with position := next, stack := rest } value segment index
  | .label _, _ => return { state with position := next }
  | .goto name, _ => return { state with position := ← labelPosition? code name }
  | .ifGoto name, value :: rest =>
    if value = 0 then return { state with position := next, stack := rest }
    else return { state with position := ← labelPosition? code name, stack := rest }
  | .function _ locals, _ =>
    return { state with position := next, store := state.store.zeroed locals }
  | .call name args, stack =>
    if stack.length < args then none
    else
      let words := (stack.take args).reverse
      let (result, shared) := calls name words state.store.toShared
      return { state with
        position := next, stack := result :: stack.drop args, store.toShared := shared,
        temp := scratch name words state.store.toShared state.temp }
  | .return, _ | .pop _ _, [] | .ifGoto _, [] => none

/-- The commands of a function of a program: its entry and what follows, up to the next entry. -/
def functionCode? (program : List Command) (name : String) : Option (List Command) :=
  match program.dropWhile fun command => !command.enters name with
  | [] => none
  | entry :: rest => some (entry :: rest.takeWhile fun command => !command.isEntry)

/-! ## Parts of the commands -/

/-- Some commands stand at a position of others. -/
def Contains (code : List Command) (position : Nat) (part : List Command) : Prop :=
  ∃ front back, code = front ++ part ++ back ∧ front.length = position

section Parts

variable {code front back : List Command} {command : Command} {position next : Nat}

/-- The first part of a part. -/
theorem Contains.left (part : Contains code position (front ++ back)) :
    Contains code position front := by
  obtain ⟨before, behind, rfl, rfl⟩ := part
  exact ⟨before, back ++ behind, by simp, rfl⟩

/-- The second part of a part. -/
theorem Contains.right (part : Contains code position (front ++ back))
    (there : position + front.length = next) : Contains code next back := by
  obtain ⟨before, behind, rfl, rfl⟩ := part
  exact ⟨before ++ front, behind, by simp, by rw [List.length_append, there]⟩

/-- The first command of a part. -/
theorem Contains.head (part : Contains code position (command :: back)) :
    code[position]? = some command := by
  obtain ⟨before, behind, rfl, rfl⟩ := part
  rw [List.append_assoc, List.getElem?_append_right (Nat.le_refl _), Nat.sub_self]
  rfl

/-- The commands behind the first one of a part. -/
theorem Contains.tail (part : Contains code position (command :: back)) :
    Contains code (position + 1) back :=
  @Contains.right code [command] back position _ part rfl

/-- The commands behind the first one of a function. -/
theorem Contains.of_cons (command : Command) (rest : List Command) :
    Contains (command :: rest) 1 rest :=
  ⟨[command], [], (List.append_nil _).symm, rfl⟩

/-- The name of a label. -/
def labelName? : Command → Option String
  | .label name => some name
  | _ => none

/-- The names of the labels of commands. -/
def labels (code : List Command) : List String := code.filterMap labelName?

/-- Labels of consecutive commands. -/
theorem labels_append (front back : List Command) :
    labels (front ++ back) = labels front ++ labels back := List.filterMap_append

/-- A label is found where it stands if no other one has its name. -/
theorem labelPosition?_eq {name : String} (distinct : (labels code).Nodup)
    (place : code[position]? = some (.label name)) : labelPosition? code name = some position := by
  induction code generalizing position with
  | nil => contradiction
  | cons first rest ih =>
    rw [labelPosition?, List.findIdx?_cons]
    cases position with
    | zero =>
      obtain rfl := Option.some.inj place
      rw [decide_eq_true rfl, if_pos rfl]
    | succ position =>
      have later : rest[position]? = some (.label name) := place
      have own : name ∈ labels rest :=
        List.mem_filterMap.mpr ⟨_, List.mem_of_getElem? later, rfl⟩
      have other : first ≠ .label name := by
        rintro rfl
        exact (List.nodup_cons.mp distinct).1 own
      have others : (labels rest).Nodup := by
        refine List.Nodup.sublist ?_ distinct
        exact (List.sublist_cons_self first rest).filterMap labelName?
      rw [decide_eq_false other, if_neg Bool.false_ne_true]
      change (labelPosition? rest name).map (· + 1) = _
      rw [ih others later]
      rfl

/-- The commands in front of a function are skipped if none is its entry. -/
theorem functionCode?_append {name : String}
    (others : ∀ command ∈ front, command.enters name = false) :
    functionCode? (front ++ back) name = functionCode? back name := by
  unfold functionCode?
  rw [List.dropWhile_append_of_pos fun command member => by rw [others command member]; rfl]

/-- A function goes up to the next entry. -/
theorem functionCode?_cons {name : String} {entry : Command} (enters : entry.enters name = true)
    (plain : ∀ command ∈ front, command.isEntry = false)
    (stops : ∀ next ∈ back.head?, next.isEntry = true) :
    functionCode? (entry :: front ++ back) name = some (entry :: front) := by
  have ended : back.takeWhile (fun command => !command.isEntry) = [] := by
    cases back with
    | nil => rfl
    | cons next rest => rw [List.takeWhile_cons, stops next rfl]; rfl
  unfold functionCode?
  rw [List.cons_append, List.dropWhile_cons_of_neg (by rw [enters]; decide)]
  dsimp only
  rw [List.takeWhile_append_of_pos fun command member => by rw [plain command member]; rfl, ended,
    List.append_nil]

end Parts

/-! ## Runs -/

section Runs

variable (code : List Command) (calls : Calls) (scratch : Scratch)

/-- One state leads to another in some steps. -/
def Steps : State → State → Prop :=
  Relation.ReflTransGen fun state next => step? code calls scratch state = some next

/-- The commands get from one point to another with the same current object, whatever the array
cursor and the temp segment hold. -/
def Passes (this : Word) (start finish : Point) : Prop :=
  ∀ that temp, ∃ that' temp',
    Steps code calls scratch ⟨start, this, that, temp⟩ ⟨finish, this, that', temp'⟩

end Runs

section Passing

variable {code : List Command} {calls : Calls} {scratch : Scratch} {this : Word}
variable {start middle finish : Point} {position : Nat} {stack : List Word} {store : Store}

/-- A point is reached from itself. -/
theorem Passes.refl : Passes code calls scratch this start start :=
  fun that temp => ⟨that, temp, .refl⟩

/-- A point is reached by way of another. -/
theorem Passes.trans (first : Passes code calls scratch this start middle)
    (second : Passes code calls scratch this middle finish) :
    Passes code calls scratch this start finish := by
  intro that temp
  obtain ⟨that₁, temp₁, firstSteps⟩ := first that temp
  obtain ⟨that₂, temp₂, secondSteps⟩ := second that₁ temp₁
  exact ⟨that₂, temp₂, firstSteps.trans secondSteps⟩

/-- A push of a word that does not depend on the array cursor and the temp segment. -/
theorem passes_push {segment : Segment} {index : Nat} {value : Word}
    (place : code[position]? = some (.push segment index))
    (read : ∀ that temp,
      State.read? ⟨⟨position, stack, store⟩, this, that, temp⟩ segment index = some value) :
    Passes code calls scratch this ⟨position, stack, store⟩
      ⟨position + 1, value :: stack, store⟩ := by
  intro that temp
  refine ⟨that, temp, .single ?_⟩
  simp [step?, place, read]

/-- A pop into a variable. -/
theorem passes_pop {segment : Segment} {index : Nat} {value : Word} {changed : Store}
    (place : code[position]? = some (.pop segment index))
    (written : ∀ that temp,
      State.write? ⟨⟨position + 1, stack, store⟩, this, that, temp⟩ value segment index =
        some ⟨⟨position + 1, stack, changed⟩, this, that, temp⟩) :
    Passes code calls scratch this ⟨position, value :: stack, store⟩
      ⟨position + 1, stack, changed⟩ := by
  intro that temp
  refine ⟨that, temp, .single ?_⟩
  simp [step?, place, written]

/-- An operation. -/
theorem passes_operate {operation : Operation} {changed : List Word}
    (place : code[position]? = some (.operate operation))
    (applied : operate? operation stack = some changed) :
    Passes code calls scratch this ⟨position, stack, store⟩ ⟨position + 1, changed, store⟩ := by
  intro that temp
  refine ⟨that, temp, .single ?_⟩
  simp [step?, place, applied]

/-- A label. -/
theorem passes_label {name : String} (place : code[position]? = some (.label name)) :
    Passes code calls scratch this ⟨position, stack, store⟩ ⟨position + 1, stack, store⟩ := by
  intro that temp
  refine ⟨that, temp, .single ?_⟩
  simp [step?, place]

/-- A jump. -/
theorem passes_goto {name : String} {target : Nat} (place : code[position]? = some (.goto name))
    (found : labelPosition? code name = some target) :
    Passes code calls scratch this ⟨position, stack, store⟩ ⟨target, stack, store⟩ := by
  intro that temp
  refine ⟨that, temp, .single ?_⟩
  simp [step?, place, found]

/-- A conditional jump that is not taken. -/
theorem passes_ifGoto_zero {name : String} (place : code[position]? = some (.ifGoto name)) :
    Passes code calls scratch this ⟨position, 0 :: stack, store⟩
      ⟨position + 1, stack, store⟩ := by
  intro that temp
  refine ⟨that, temp, .single ?_⟩
  simp [step?, place]

/-- A conditional jump that is taken. -/
theorem passes_ifGoto_of_ne_zero {name : String} {target : Nat} {value : Word}
    (place : code[position]? = some (.ifGoto name)) (nonzero : value ≠ 0)
    (found : labelPosition? code name = some target) :
    Passes code calls scratch this ⟨position, value :: stack, store⟩ ⟨target, stack, store⟩ := by
  intro that temp
  refine ⟨that, temp, .single ?_⟩
  simp [step?, place, nonzero, found]

/-- A call takes its arguments from the stack; the last one is on top. -/
theorem passes_call {name : String} {args : Nat} {words : List Word} {result : Word}
    {shared : Shared} (place : code[position]? = some (.call name args))
    (count : words.length = args)
    (answered : calls name words store.toShared = (result, shared)) :
    Passes code calls scratch this ⟨position, words.reverse ++ stack, store⟩
      ⟨position + 1, result :: stack, { store with toShared := shared }⟩ := by
  intro that temp
  have length : words.reverse.length = args := by rw [List.length_reverse, count]
  have enough : ¬ (words.reverse ++ stack).length < args := by
    rw [List.length_append, length]
    omega
  have taken : ((words.reverse ++ stack).take args).reverse = words := by
    rw [← length, List.take_left, List.reverse_reverse]
  have left : (words.reverse ++ stack).drop args = stack := by rw [← length, List.drop_left]
  refine ⟨that, scratch name words store.toShared temp, .single ?_⟩
  simp [step?, place, -List.length_append, enough, taken, left, answered]

end Passing

end JackToolchain.Vm.Routine
