import JackToolchain.Build
import JackToolchain.Proofs.Vm.Effect

/-!
# Programs of the stack machine

The stack machine executes the commands of all units one after another. A jump goes to a label of
the same function, or of the same unit before its first function; a call goes to the function of
its name, and a return to the command behind a call. Two things are not the machine's own choice:
the cells of static variables and the words that stand for places of the program, which a call
pushes. They are given by a `Placement`.
-/
namespace JackToolchain.Vm

open Machine (Word Memory StackCell)

/-! ## Places -/

/-- A command in its place. -/
structure Site where
  /-- The unit of the command. -/
  unit : String
  /-- The number of the function, or of the start of a unit, that the command belongs to. -/
  region : Nat
  /-- What its instructions depend on, of the commands of its unit before it. -/
  numbering : Numbering
  /-- The command. -/
  command : Command

/-- Whether a command is the entry of a function. -/
def Command.isEntry : Command → Bool
  | .function _ _ => true
  | _ => false

/-- Whether a command is a call. -/
def Command.isCall : Command → Bool
  | .call _ _ => true
  | _ => false

/-- Whether a command is the entry of the function with this name. -/
def Command.enters (name : String) : Command → Bool
  | .function entered _ => entered = name
  | _ => false

/-- The label that a command may jump to. -/
def Command.target? : Command → Option String
  | .goto name | .ifGoto name => some name
  | _ => none

/-- The places of the rest of a unit: every function is a region of its own. -/
def unitSites (unit : String) (region : Nat) (numbering : Numbering) : List Command → List Site
  | [] => []
  | command :: rest =>
    let region := if command.isEntry then region + 1 else region
    ⟨unit, region, numbering, command⟩ :: unitSites unit region (numbering.after command) rest

/-- The places of units, of which the first starts a region of its own. -/
def sites (region : Nat) : List (String × List Command) → List Site
  | [] => []
  | (unit, commands) :: rest =>
    unitSites unit region { scope := unit } commands ++ sites (region + commands.length + 1) rest

/-- The place of the call with which a bootstrap starts a program. -/
def bootstrapSite : Site where
  unit := bootstrapUnit
  region := 0
  numbering := { scope := bootstrapUnit }
  command := .call ({} : Layout).entry 0

/-- The places of a program. -/
def programSites (bootstrap : Bool) (units : List (String × List Command)) : List Site :=
  if bootstrap then bootstrapSite :: sites 1 units else sites 0 units

/-! ## Execution -/

/-- What the stack machine does not choose itself. -/
structure Placement where
  /-- The cell of a static variable of a unit. -/
  staticCell : String → Nat → Word
  /-- The word that stands for a place of the program. -/
  codeAddress : Nat → Word

/-- A state of the stack machine. -/
structure State where
  /-- The number of the next command. -/
  position : Nat
  /-- The memory. -/
  memory : Memory

section Execution

variable (program : List Site) (placement : Placement)

/-- The place of a label in a region. -/
def labelPosition? (region : Nat) (name : String) : Option Nat :=
  program.findIdx? fun site => site.region = region ∧ site.command = .label name

/-- The place of the entry of a function. -/
def functionPosition? (name : String) : Option Nat :=
  program.findIdx? fun site => site.command.enters name

/-- The place behind the call that a word stands for the end of. -/
def returnPosition? (word : Word) : Option Nat :=
  ((List.range program.length).find? fun position =>
    (program[position]?.any fun site => site.command.isCall) &&
      placement.codeAddress (position + 1) = word).map (· + 1)

/-- Executes the next command. There is no next state behind the last command, and none when a
jump, a call or a return has nowhere to go. -/
def step? (state : State) : Option State := do
  let site ← program[state.position]?
  let next := state.position + 1
  match site.command with
  | .operate operation => return ⟨next, operation.effect state.memory⟩
  | .push segment index =>
    return ⟨next, pushEffect (placement.staticCell site.unit) segment index state.memory⟩
  | .pop segment index =>
    let cell ← segmentCell? (placement.staticCell site.unit) state.memory segment index
    return ⟨next, popEffect cell state.memory⟩
  | .label _ => return ⟨next, state.memory⟩
  | .goto name => return ⟨← labelPosition? program site.region name, state.memory⟩
  | .ifGoto name =>
    if state.memory.popped = 0 then return ⟨next, state.memory.drop⟩
    else return ⟨← labelPosition? program site.region name, state.memory.drop⟩
  | .function _ locals => return ⟨next, functionEffect locals state.memory⟩
  | .call name args =>
    return ⟨← functionPosition? program name,
      callEffect (placement.codeAddress next) args state.memory⟩
  | .return =>
    return ⟨← returnPosition? program placement (returnTarget state.memory),
      returnEffect state.memory⟩

/-- The words that the next command takes from the stack and from a frame lie on the stack, and a
push reads none of the two cells that the instructions use for themselves. -/
def Safe (state : State) : Prop :=
  ∀ site, program[state.position]? = some site →
    match site.command with
    | .operate operation =>
      StackCell (state.memory.stackPointer - 1) ∧
        (operation.isUnary = false → StackCell (state.memory.stackPointer - 1 - 1))
    | .push segment index =>
      ∀ cell, segmentCell? (placement.staticCell site.unit) state.memory segment index = some cell →
        ¬ Scratch cell
    | .pop _ _ | .ifGoto _ => StackCell (state.memory.stackPointer - 1)
    | .return =>
      StackCell (state.memory.stackPointer - 1) ∧
        (∀ depth < 5,
          StackCell (state.memory.read Pointer.lcl.cell - 1 - UInt16.ofNat depth)) ∧
        StackCell (state.memory.read Pointer.arg.cell)
    | .label _ | .goto _ | .function _ _ | .call _ _ => True

/-- The machine goes from a state through the listed ones, each step of it safe. -/
def Run (state : State) : List State → Prop
  | [] => True
  | next :: rest =>
    (step? program placement state = some next ∧ Safe program placement state) ∧ Run next rest

end Execution

/-! ## Targets -/

section Targets

variable {program : List Site} {placement : Placement} {name : String} {position : Nat}

/-- The place that is found for a label has the label, in the same region. -/
theorem label_of_labelPosition? {region : Nat}
    (found : labelPosition? program region name = some position) :
    ∃ site, program[position]? = some site ∧ site.region = region ∧ site.command = .label name := by
  obtain ⟨inside, holds, _⟩ := List.findIdx?_eq_some_iff_getElem.mp found
  exact ⟨_, List.getElem?_eq_getElem inside, by simpa using holds⟩

/-- The place that is found for a function has its entry. -/
theorem entry_of_functionPosition? (found : functionPosition? program name = some position) :
    ∃ site locals, program[position]? = some site ∧ site.command = .function name locals := by
  obtain ⟨inside, holds, _⟩ := List.findIdx?_eq_some_iff_getElem.mp found
  cases command : program[position].command with
  | function entered locals =>
    rw [command, Command.enters, decide_eq_true_eq] at holds
    exact ⟨_, locals, List.getElem?_eq_getElem inside, by rw [command, holds]⟩
  | _ =>
    rw [command] at holds
    contradiction

/-- The place that is found for a return is behind a call, and the word stands for it. -/
theorem call_of_returnPosition? {word : Word}
    (found : returnPosition? program placement word = some position) :
    ∃ call site name args, position = call + 1 ∧ program[call]? = some site ∧
      site.command = .call name args ∧ placement.codeAddress position = word := by
  obtain ⟨call, isCall, rfl⟩ := Option.map_eq_some_iff.mp found
  have holds := List.find?_some isCall
  rw [Bool.and_eq_true, decide_eq_true_eq, Option.any_eq_true] at holds
  obtain ⟨⟨site, place, calls⟩, address⟩ := holds
  cases command : site.command with
  | call name args => exact ⟨call, site, name, args, rfl, place, command, address⟩
  | _ =>
    rw [command] at calls
    contradiction

end Targets

/-! ## Scopes -/

section Scopes

variable {unit : String} {region : Nat} {numbering : Numbering} {commands : List Command}
variable {units : List (String × List Command)} {left right site : Site}

/-- Only the entry of a function changes the scope. -/
theorem scope_after {command : Command} (plain : command.isEntry = false) :
    (numbering.after command).scope = numbering.scope := by
  cases command with
  | operate operation =>
    cases operation <;> rfl
  | function name locals => contradiction
  | _ => rfl

end Scopes

end JackToolchain.Vm
