import JackToolchain.Proofs.Vm.Frame
import JackToolchain.Proofs.Vm.Program
import Mathlib.Data.List.Forall2
import Mathlib.Order.Monotone.Basic

/-!
# Simulation of the stack machine

The processor that executes the blocks of a program follows the stack machine: at every command it
is at the block of the command, with the memory of the stack machine outside the two cells that the
blocks use for themselves. A place of the program is the number of words before its block. Labels
take no words, so several places may have one address; a jump to its own address halts the
processor, and the stack machine then circles among places of that address.
-/
namespace JackToolchain.Vm

open Assembly (Instruction)
open Machine

/-! ## Blocks of a program -/

/-- The instructions of a command in its place. -/
def Site.instructions (site : Site) : Except Fault (List Instruction) :=
  site.command.instructions {} site.unit site.numbering

/-- The blocks of a program are in the program memory, between some instructions in front and
some behind. -/
structure Compiled (program : List Site) (front back : List Instruction)
    (blocks : List (List Instruction)) (address : String → Word) (rom : Array Word) : Prop where
  /-- Each place has its block. -/
  made : List.Forall₂ (fun site block => site.instructions = .ok block) program blocks
  /-- The blocks are in the program memory. -/
  loaded : Loaded address rom (front ++ blocks.flatten ++ back)
  /-- The commands of a region share the symbols of labels. -/
  scope : ∀ left ∈ program, ∀ right ∈ program, left.region = right.region →
    left.command.isEntry = false → right.command.isEntry = false →
    left.numbering.scope = right.numbering.scope

/-- The number of words before a place. -/
def offset (front : List Instruction) (blocks : List (List Instruction)) (position : Nat) : Nat :=
  size front + size (blocks.take position).flatten

/-- Static variables are where the assembler placed their symbols, and a place of the program is
the number of words before it. -/
def placement (address : String → Word) (front : List Instruction)
    (blocks : List (List Instruction)) : Placement where
  staticCell := staticCells address
  codeAddress := fun position => UInt16.ofNat (offset front blocks position)

section Simulation

variable {program : List Site} {front back : List Instruction} {blocks : List (List Instruction)}
variable {address : String → Word} {rom : Array Word} {position : Nat} {site : Site}

/-- A place has a block, which stands at its address and ends at the address of the next place. -/
theorem Compiled.block (compiled : Compiled program front back blocks address rom)
    (place : program[position]? = some site) :
    ∃ block, site.instructions = .ok block ∧
      offset front blocks (position + 1) = offset front blocks position + size block ∧
      (placement address front blocks).codeAddress (position + 1) =
        (placement address front blocks).codeAddress position + UInt16.ofNat (size block) ∧
      StandsAt (front ++ blocks.flatten ++ back) block
        ((placement address front blocks).codeAddress position) := by
  obtain ⟨inside, rfl⟩ := List.getElem?_eq_some_iff.mp place
  have same := compiled.made.length_eq
  have fits : position < blocks.length := same ▸ inside
  have after : offset front blocks (position + 1) =
      offset front blocks position + size blocks[position] := by
    rw [offset, List.take_succ_eq_append_getElem fits, List.flatten_append, size_append,
      List.flatten_singleton, offset, Nat.add_assoc]
  refine ⟨blocks[position], compiled.made.get inside fits, after, ?_, ?_⟩
  · change UInt16.ofNat _ = UInt16.ofNat _ + _
    rw [after, UInt16.ofNat_add]
  · refine ⟨front ++ (blocks.take position).flatten,
      (blocks.drop (position + 1)).flatten ++ back, ?_, ?_⟩
    · have cut : blocks = blocks.take position ++ blocks[position] :: blocks.drop (position + 1) := by
        rw [← List.drop_eq_getElem_cons fits, List.take_append_drop]
      conv_lhs => rw [cut]
      simp only [List.flatten_append, List.flatten_cons, List.append_assoc]
    · rw [size_append]
      rfl

/-- The places of a program are in the program memory. -/
theorem Compiled.offset_le (compiled : Compiled program front back blocks address rom)
    (position : Nat) : offset front blocks position ≤ 32768 := by
  have fits := compiled.loaded.fits
  have cut := congrArg (fun blocks => size blocks.flatten) (List.take_append_drop position blocks)
  simp only [List.flatten_append, size_append] at cut
  rw [size_append, size_append, ← cut] at fits
  exact Nat.le_trans (by unfold offset; omega) fits

/-- Later places are not before earlier ones. -/
theorem offset_mono : Monotone (offset front blocks) := by
  refine monotone_nat_of_le_succ fun position => ?_
  rw [offset, offset, List.take_add_one, List.flatten_append, size_append]
  omega

/-- Places with one address have the same number of words before them. -/
theorem Compiled.offset_eq_of_codeAddress_eq
    (compiled : Compiled program front back blocks address rom) {left right : Nat}
    (same : (placement address front blocks).codeAddress left =
      (placement address front blocks).codeAddress right) :
    offset front blocks left = offset front blocks right := by
  have leftBound := compiled.offset_le left
  have rightBound := compiled.offset_le right
  have equal := congrArg UInt16.toNat same
  simp only [placement, UInt16.toNat_ofNat'] at equal
  omega

/-! ## Steps -/

/-- The processor is at the block of the next command, or has halted there, with the memory of the
stack machine. -/
structure Matches (placement : Placement) (state : State) (cpu : Cpu) : Prop where
  /-- The place. -/
  pc : cpu.pc = placement.codeAddress state.position
  /-- The memory. -/
  memory : Agree state.memory cpu.ram

/-- The processor gets to the block of the next command with the memory of the stack machine, and
has not halted. -/
def Advances (rom : Array Word) (placement : Placement) (cpu : Cpu) (next : State) : Prop :=
  ∃ later, Reaches cpu later ∧ At later rom (placement.codeAddress next.position) ∧
    Agree next.memory later.ram

variable {cpu : Cpu} {state next : State} {pc : Word} {wanted : Memory}

/-- Execution that leads to the next place with an agreeing memory gets the processor there. -/
theorem advances_of_runs {placement : Placement} (there : At cpu rom pc)
    (runs : Runs rom pc cpu.ram (placement.codeAddress next.position) wanted)
    (agrees : Agree next.memory wanted) : Advances rom placement cpu next := by
  obtain ⟨later, reached, arrived, result⟩ := runs.reaches there
  exact ⟨later, reached, arrived, agrees.trans result⟩

/-- The symbol of a label has the address of its place. -/
theorem Compiled.address_label (compiled : Compiled program front back blocks address rom)
    {name : String} (place : program[position]? = some site) (command : site.command = .label name) :
    address (site.numbering.labelSymbol name) =
      (placement address front blocks).codeAddress position := by
  obtain ⟨block, made, -, -, stands⟩ := compiled.block place
  rw [Site.instructions, command] at made
  cases lowers_of_instructions made
  exact (compiled.loaded.holds stands).1

/-- The symbol of a label is the same throughout a region. -/
theorem Compiled.address_target (compiled : Compiled program front back blocks address rom)
    {name : String} {target : Nat} (place : program[position]? = some site)
    (plain : site.command.isEntry = false)
    (found : labelPosition? program site.region name = some target) :
    address (site.numbering.labelSymbol name) =
      (placement address front blocks).codeAddress target := by
  obtain ⟨label, labelPlace, region, command⟩ := label_of_labelPosition? found
  rw [← compiled.address_label labelPlace command, Numbering.labelSymbol, Numbering.labelSymbol,
    compiled.scope _ (List.mem_of_getElem? labelPlace) _ (List.mem_of_getElem? place) region
      (by rw [command]; rfl) plain]

/-- The name of a function has the address of its entry. -/
theorem Compiled.address_function (compiled : Compiled program front back blocks address rom)
    {name : String} {locals : Nat} (place : program[position]? = some site)
    (command : site.command = .function name locals) :
    address name = (placement address front blocks).codeAddress position ∧
      .label name ∈ front ++ blocks.flatten ++ back := by
  obtain ⟨block, made, -, -, stands⟩ := compiled.block place
  rw [Site.instructions, command] at made
  cases lowers_of_instructions made
  exact ⟨(compiled.loaded.holds stands).1, stands.mem List.mem_cons_self⟩

section Commands

variable (compiled : Compiled program front back blocks address rom)
variable (there : At cpu rom ((placement address front blocks).codeAddress state.position))
variable (same : Agree state.memory cpu.ram) (place : program[state.position]? = some site)
include compiled there same place

/-- An operation advances to the next command. -/
theorem advances_operate {operation : Operation} (command : site.command = .operate operation)
    (upper : StackCell (state.memory.stackPointer - 1))
    (lower : operation.isUnary = false → StackCell (state.memory.stackPointer - 1 - 1)) :
    Advances rom (placement address front blocks) cpu
      ⟨state.position + 1, operation.effect state.memory⟩ := by
  obtain ⟨block, made, -, after, stands⟩ := compiled.block place
  rw [Site.instructions, command] at made
  cases lowers_of_instructions made
  have inside := lower
  rw [same.stackPointer] at inside
  refine advances_of_runs there ?_ (same.operate operation upper lower)
  rw [after]
  exact runs_operate compiled.loaded.platform inside (compiled.loaded.holds stands)

/-- A push advances to the next command. -/
theorem advances_push {segment : Segment} {index : Nat}
    (command : site.command = .push segment index)
    (free : ∀ cell, segmentCell? (staticCells address site.unit) state.memory segment index =
      some cell → ¬ Scratch cell) :
    Advances rom (placement address front blocks) cpu
      ⟨state.position + 1,
        pushEffect (staticCells address site.unit) segment index state.memory⟩ := by
  obtain ⟨block, made, -, after, stands⟩ := compiled.block place
  rw [Site.instructions, command] at made
  cases lowers_of_instructions made with
  | push located =>
    refine advances_of_runs there ?_ (same.pushSegment _ segment index free)
    rw [after]
    exact runs_push compiled.loaded.platform located (compiled.loaded.holds stands)

/-- A pop advances to the next command. -/
theorem advances_pop {segment : Segment} {index : Nat} {cell : Word}
    (command : site.command = .pop segment index)
    (target : segmentCell? (staticCells address site.unit) state.memory segment index = some cell)
    (inside : StackCell (state.memory.stackPointer - 1)) :
    Advances rom (placement address front blocks) cpu
      ⟨state.position + 1, popEffect cell state.memory⟩ := by
  obtain ⟨block, made, -, after, stands⟩ := compiled.block place
  rw [Site.instructions, command] at made
  cases lowers_of_instructions made with
  | pop located popped =>
    refine advances_of_runs there ?_ (same.pop cell inside)
    rw [same.segmentCell?] at target
    rw [same.stackPointer] at inside
    rw [after]
    exact runs_pop compiled.loaded.platform located popped target inside
      (compiled.loaded.holds stands)

/-- A label is where the next command is. -/
theorem advances_label {name : String} (command : site.command = .label name) :
    Advances rom (placement address front blocks) cpu ⟨state.position + 1, state.memory⟩ := by
  obtain ⟨block, made, -, after, -⟩ := compiled.block place
  rw [Site.instructions, command] at made
  cases lowers_of_instructions made
  refine ⟨cpu, .refl, ?_, same⟩
  rw [after, show size [Instruction.label _] = 0 from rfl, show UInt16.ofNat 0 = 0 from rfl,
    UInt16.add_zero]
  exact there

/-- A conditional jump advances to the next command or to its label. -/
theorem advances_ifGoto {name : String} {target : Nat} (command : site.command = .ifGoto name)
    (inside : StackCell (state.memory.stackPointer - 1))
    (goes : state.memory.popped = 0 ∧ target = state.position + 1 ∨
      state.memory.popped ≠ 0 ∧ labelPosition? program site.region name = some target) :
    Advances rom (placement address front blocks) cpu ⟨target, state.memory.drop⟩ := by
  obtain ⟨block, made, -, after, stands⟩ := compiled.block place
  rw [Site.instructions, command] at made
  cases lowers_of_instructions made
  have runs : Runs _ _ cpu.ram _ _ :=
    runs_ifGoto compiled.loaded.platform (compiled.loaded.holds stands)
  rw [← same.popped inside] at runs
  refine advances_of_runs there ?_ same.drop
  rcases goes with ⟨zero, rfl⟩ | ⟨taken, found⟩
  · rw [if_pos zero] at runs
    rw [after]
    exact runs
  · rw [if_neg taken, compiled.address_target place (by rw [command]; rfl) found] at runs
    exact runs

/-- The entry of a function advances to the next command. -/
theorem advances_function {name : String} {locals : Nat}
    (command : site.command = .function name locals) :
    Advances rom (placement address front blocks) cpu
      ⟨state.position + 1, functionEffect locals state.memory⟩ := by
  obtain ⟨block, made, -, after, stands⟩ := compiled.block place
  rw [Site.instructions, command] at made
  cases lowers_of_instructions made
  refine advances_of_runs there ?_ (same.function locals)
  rw [after]
  exact runs_function compiled.loaded.platform (compiled.loaded.holds stands)

/-- A call advances to its function. -/
theorem advances_call {name : String} {args target : Nat} (command : site.command = .call name args)
    (found : functionPosition? program name = some target) :
    Advances rom (placement address front blocks) cpu
      ⟨target, callEffect ((placement address front blocks).codeAddress (state.position + 1)) args
        state.memory⟩ := by
  obtain ⟨block, made, -, after, stands⟩ := compiled.block place
  rw [Site.instructions, command] at made
  cases lowers_of_instructions made
  obtain ⟨entry, locals, entryPlace, enters⟩ := entry_of_functionPosition? found
  obtain ⟨named, label⟩ := compiled.address_function entryPlace enters
  have runs : Runs _ _ cpu.ram _ _ := runs_call compiled.loaded label stands
  rw [named, address_back (compiled.loaded.holds stands), ← after] at runs
  exact advances_of_runs there runs (same.call _ args)

/-- A return advances to the command behind the call. -/
theorem advances_return {target : Nat} (command : site.command = .return)
    (top : StackCell (state.memory.stackPointer - 1))
    (frame : ∀ depth < 5, StackCell (state.memory.read Pointer.lcl.cell - 1 - UInt16.ofNat depth))
    (first : StackCell (state.memory.read Pointer.arg.cell))
    (found : returnPosition? program (placement address front blocks) (returnTarget state.memory) =
      some target) :
    Advances rom (placement address front blocks) cpu ⟨target, returnEffect state.memory⟩ := by
  obtain ⟨block, made, -, after, stands⟩ := compiled.block place
  rw [Site.instructions, command] at made
  cases lowers_of_instructions made
  obtain ⟨call, caller, name, args, rfl, callPlace, calls, word⟩ := call_of_returnPosition? found
  obtain ⟨callBlock, callMade, -, callAfter, callStands⟩ := compiled.block callPlace
  rw [Site.instructions, calls] at callMade
  cases lowers_of_instructions callMade
  have label : .label caller.numbering.returnSymbol ∈ front ++ blocks.flatten ++ back :=
    callStands.mem (by simp [Vm.callBlock])
  have lowest := stackCell_lowest frame
  have comesBack := address_back (compiled.loaded.holds callStands)
  rw [← callAfter, word] at comesBack
  have agrees := same.return top frame
  rw [same.returnTarget lowest] at comesBack word
  rw [same.stackPointer] at top
  rw [same.pointer] at first
  simp only [same.pointer] at frame
  have runs : Runs _ _ cpu.ram _ _ :=
    runs_return compiled.loaded label comesBack.symm top frame first stands
  rw [comesBack, ← word] at runs
  exact advances_of_runs there runs agrees

/-- A jump to another address advances to its label. -/
theorem advances_goto {name : String} {target : Nat} (command : site.command = .goto name)
    (found : labelPosition? program site.region name = some target)
    (apart : offset front blocks target ≠ offset front blocks state.position) :
    Advances rom (placement address front blocks) cpu ⟨target, state.memory⟩ := by
  obtain ⟨block, made, -, -, stands⟩ := compiled.block place
  rw [Site.instructions, command] at made
  cases lowers_of_instructions made
  have goal := compiled.address_target place (by rw [command]; rfl) found
  have awake : address (site.numbering.labelSymbol name) ≠
      (placement address front blocks).codeAddress state.position :=
    fun equal => apart (compiled.offset_eq_of_codeAddress_eq (goal.symm.trans equal))
  have runs : Runs _ _ cpu.ram _ _ := runs_goto awake (compiled.loaded.holds stands)
  rw [goal] at runs
  exact advances_of_runs there runs same

end Commands

/-! ## Loops that do nothing -/

/-- A place from which the machine only gets to a jump that goes back to the address of the place:
the processor halts in this loop. -/
def Idle (program : List Site) (front : List Instruction) (blocks : List (List Instruction))
    (position : Nat) : Prop :=
  ∃ jump site name target, program[jump]? = some site ∧ site.command = .goto name ∧
    labelPosition? program site.region name = some target ∧
    target ≤ jump ∧ offset front blocks target = offset front blocks jump ∧
    position ≤ jump ∧ offset front blocks position = offset front blocks jump

/-- Only labels and entries of functions without locals take no words. -/
theorem label_or_entry_of_size_eq_zero {block : List Instruction}
    (made : site.instructions = .ok block) (none : size block = 0) :
    (∃ name, site.command = .label name) ∨ ∃ name, site.command = .function name 0 := by
  unfold Site.instructions at made
  generalize site.command = command at made ⊢
  cases lowers_of_instructions made with
  | operate operation => cases operation <;> contradiction
  | @push segment index location located => cases location <;> contradiction
  | @pop segment index location block located popped =>
    cases location with
    | constant value => contradiction
    | _ =>
      obtain rfl := Option.some.inj popped
      contradiction
  | label name => exact .inl ⟨name, rfl⟩
  | @function name locals inRange =>
    cases locals with
    | zero => exact .inr ⟨name, rfl⟩
    | succ locals =>
      rw [functionBlock, size, List.replicate_succ, List.flatten_cons, size_append] at none
      have words : size pushZero = 5 := rfl
      omega
  | _ => contradiction

/-- A jump to its own address halts the processor there, in a loop that does nothing. -/
theorem halts_of_idle (compiled : Compiled program front back blocks address rom)
    (there : At cpu rom ((placement address front blocks).codeAddress state.position))
    (place : program[state.position]? = some site) {name : String} {target : Nat}
    (command : site.command = .goto name)
    (found : labelPosition? program site.region name = some target)
    (level : offset front blocks target = offset front blocks state.position) :
    ∃ later, Reaches cpu later ∧ later.halted = true ∧
      later.pc = (placement address front blocks).codeAddress state.position ∧
      later.ram = cpu.ram ∧ Idle program front blocks target := by
  obtain ⟨block, made, words, -, stands⟩ := compiled.block place
  rw [Site.instructions, command] at made
  cases lowers_of_instructions made
  have asleep : address (site.numbering.labelSymbol name) =
      (placement address front blocks).codeAddress state.position := by
    rw [compiled.address_target place (by rw [command]; rfl) found]
    exact congrArg UInt16.ofNat level
  obtain ⟨later, reached, halted, stopped, kept⟩ :=
    halts_goto asleep (compiled.loaded.holds stands) there
  have before : target ≤ state.position := by
    by_contra behind
    have order : offset front blocks (state.position + 1) ≤ offset front blocks target :=
      offset_mono (by omega)
    have two : size (gotoBlock (site.numbering.labelSymbol name)) = 2 := rfl
    omega
  exact ⟨later, reached, halted, stopped, kept, _, site, name, target, place, command, found, before,
    level, before, level⟩

/-- A step in a loop that does nothing changes no memory, and stays at the address. -/
theorem Idle.step (compiled : Compiled program front back blocks address rom)
    (idle : Idle program front blocks state.position)
    (stepped : step? program (placement address front blocks) state = some next) :
    next.memory = state.memory ∧ Idle program front blocks next.position ∧
      offset front blocks next.position = offset front blocks state.position := by
  obtain ⟨jump, jumpSite, name, target, jumpPlace, jumps, found, before, level, order, same⟩ := idle
  have again (position : Nat) (order : position ≤ jump)
      (same : offset front blocks position = offset front blocks jump) :
      Idle program front blocks position :=
    ⟨jump, jumpSite, name, target, jumpPlace, jumps, found, before, level, order, same⟩
  obtain rfl | early := Nat.eq_or_lt_of_le order
  · simp only [step?, jumpPlace, jumps, found, Option.bind_eq_bind, Option.bind_some,
      Option.pure_def, Option.some.injEq] at stepped
    obtain rfl := stepped
    exact ⟨rfl, again target before level, level⟩
  · -- Everything up to the jump takes no words, so it does nothing.
    obtain ⟨inside, _⟩ := List.getElem?_eq_some_iff.mp jumpPlace
    have place := List.getElem?_eq_getElem (Nat.lt_trans early inside)
    obtain ⟨block, made, words, -, -⟩ := compiled.block place
    have later : offset front blocks (state.position + 1) ≤ offset front blocks jump :=
      offset_mono early
    have level' : offset front blocks (state.position + 1) = offset front blocks jump := by omega
    have step : next = ⟨state.position + 1, state.memory⟩ := by
      rcases label_or_entry_of_size_eq_zero made (by omega) with ⟨label, command⟩ |
        ⟨entry, command⟩
      · simp only [step?, place, command, Option.bind_eq_bind, Option.bind_some, Option.pure_def,
          Option.some.injEq] at stepped
        exact stepped.symm
      · simp only [step?, place, command, Option.bind_eq_bind, Option.bind_some, Option.pure_def,
          Option.some.injEq, functionEffect] at stepped
        exact stepped.symm
    rw [step]
    exact ⟨rfl, again _ early level', level'.trans same.symm⟩

/-! ## Runs -/

/-- The processor is at the block of the next command with the memory of the stack machine, and
it has halted only if the stack machine is in a loop that does nothing. -/
structure Simulates (program : List Site) (front : List Instruction)
    (blocks : List (List Instruction)) (address : String → Word) (rom : Array Word) (cpu : Cpu)
    (state : State) : Prop where
  /-- The place and the memory. -/
  matching : Matches (placement address front blocks) state cpu
  /-- The processor goes on, or nothing is left to do. -/
  goesOn : At cpu rom ((placement address front blocks).codeAddress state.position) ∨
    cpu.halted = true ∧ Idle program front blocks state.position

/-- A processor that advances simulates the next state. -/
theorem simulates_of_advances
    (advances : Advances rom (placement address front blocks) cpu next) :
    ∃ later, Reaches cpu later ∧ Simulates program front blocks address rom later next := by
  obtain ⟨later, reached, there, same⟩ := advances
  exact ⟨later, reached, ⟨there.pc, same⟩, .inl there⟩

/-- A jump is followed by the processor, which halts in a loop that does nothing if the jump goes to
its own address. -/
theorem simulates_goto (compiled : Compiled program front back blocks address rom)
    (there : At cpu rom ((placement address front blocks).codeAddress state.position))
    (same : Agree state.memory cpu.ram) (place : program[state.position]? = some site)
    {name : String} {target : Nat} (command : site.command = .goto name)
    (found : labelPosition? program site.region name = some target) :
    ∃ later, Reaches cpu later ∧
      Simulates program front blocks address rom later ⟨target, state.memory⟩ := by
  by_cases level : offset front blocks target = offset front blocks state.position
  · obtain ⟨later, reached, halted, stopped, kept, idle⟩ :=
      halts_of_idle compiled there place command found level
    refine ⟨later, reached, ⟨?_, kept ▸ same⟩, .inr ⟨halted, idle⟩⟩
    rw [stopped]
    exact congrArg UInt16.ofNat level.symm
  · exact simulates_of_advances (advances_goto compiled there same place command found level)

/-- A processor that goes on follows one step of the stack machine. -/
theorem simulates_of_at (compiled : Compiled program front back blocks address rom)
    (there : At cpu rom ((placement address front blocks).codeAddress state.position))
    (same : Agree state.memory cpu.ram)
    (stepped : step? program (placement address front blocks) state = some next)
    (safe : Safe program (placement address front blocks) state) :
    ∃ later, Reaches cpu later ∧ Simulates program front blocks address rom later next := by
  obtain ⟨site, place, stepped⟩ := Option.bind_eq_some_iff.mp stepped
  have safe := safe site place
  cases command : site.command with
  | operate operation =>
    rw [command] at safe stepped
    obtain rfl := Option.some.inj stepped
    exact simulates_of_advances (advances_operate compiled there same place command safe.1 safe.2)
  | push segment index =>
    rw [command] at safe stepped
    obtain rfl := Option.some.inj stepped
    exact simulates_of_advances (advances_push compiled there same place command safe)
  | pop segment index =>
    rw [command] at safe stepped
    obtain ⟨cell, target, popped⟩ := Option.bind_eq_some_iff.mp stepped
    obtain rfl := Option.some.inj popped
    exact simulates_of_advances (advances_pop compiled there same place command target safe)
  | label name =>
    rw [command] at stepped
    obtain rfl := Option.some.inj stepped
    exact simulates_of_advances (advances_label compiled there same place command)
  | goto name =>
    rw [command] at stepped
    obtain ⟨target, found, jumped⟩ := Option.bind_eq_some_iff.mp stepped
    obtain rfl := Option.some.inj jumped
    exact simulates_goto compiled there same place command found
  | ifGoto name =>
    rw [command] at safe stepped
    dsimp only at stepped
    by_cases zero : state.memory.popped = 0
    · rw [if_pos zero] at stepped
      obtain rfl := Option.some.inj stepped
      exact simulates_of_advances
        (advances_ifGoto compiled there same place command safe (.inl ⟨zero, rfl⟩))
    · rw [if_neg zero] at stepped
      obtain ⟨target, found, jumped⟩ := Option.bind_eq_some_iff.mp stepped
      obtain rfl := Option.some.inj jumped
      exact simulates_of_advances
        (advances_ifGoto compiled there same place command safe (.inr ⟨zero, found⟩))
  | function name locals =>
    rw [command] at stepped
    obtain rfl := Option.some.inj stepped
    exact simulates_of_advances (advances_function compiled there same place command)
  | call name args =>
    rw [command] at stepped
    obtain ⟨target, found, called⟩ := Option.bind_eq_some_iff.mp stepped
    obtain rfl := Option.some.inj called
    exact simulates_of_advances (advances_call compiled there same place command found)
  | «return» =>
    rw [command] at safe stepped
    obtain ⟨target, found, returned⟩ := Option.bind_eq_some_iff.mp stepped
    obtain rfl := Option.some.inj returned
    exact simulates_of_advances
      (advances_return compiled there same place command safe.1 safe.2.1 safe.2.2 found)

/-- One step of the stack machine is followed by the processor. -/
theorem Simulates.step (compiled : Compiled program front back blocks address rom)
    (simulates : Simulates program front blocks address rom cpu state)
    (stepped : step? program (placement address front blocks) state = some next)
    (safe : Safe program (placement address front blocks) state) :
    ∃ later, Reaches cpu later ∧ Simulates program front blocks address rom later next := by
  obtain ⟨⟨pc, same⟩, there | ⟨halted, idle⟩⟩ := simulates
  · exact simulates_of_at compiled there same stepped safe
  · obtain ⟨kept, circles, level⟩ := idle.step compiled stepped
    refine ⟨cpu, .refl, ⟨?_, kept ▸ same⟩, .inr ⟨halted, circles⟩⟩
    rw [pc]
    exact congrArg UInt16.ofNat level.symm

/-- The processor passes through states that match the listed ones, in their order. -/
inductive Follows (placement : Placement) : Cpu → List State → Prop where
  | nil {cpu : Cpu} : Follows placement cpu []
  | cons {cpu later : Cpu} {state : State} {rest : List State} (reached : Reaches cpu later)
    (matching : Matches placement state later) (follows : Follows placement later rest) :
    Follows placement cpu (state :: rest)

/-- A run of the stack machine is followed by the processor, command by command. -/
theorem Simulates.run (compiled : Compiled program front back blocks address rom)
    {states : List State} (simulates : Simulates program front blocks address rom cpu state)
    (run : Run program (placement address front blocks) state states) :
    Follows (placement address front blocks) cpu states := by
  induction states generalizing cpu state with
  | nil => exact .nil
  | cons next rest ih =>
    obtain ⟨⟨stepped, safe⟩, others⟩ := run
    obtain ⟨later, reached, after⟩ := simulates.step compiled stepped safe
    exact .cons reached after.matching (ih after others)

end Simulation

end JackToolchain.Vm
