import JackToolchain.Proofs.Machine.Execution
import JackToolchain.Proofs.Vm.Effect
import JackToolchain.Proofs.Vm.Location
import JackToolchain.Vm.Frame

/-!
# Execution of the stack blocks

Each block of the stack commands does to the memory what its command does. A block is executed
symbolically once, by folding its instructions over the registers; where it keeps something in one
of the two cells of its own, its result agrees with the effect outside them.
-/
namespace JackToolchain.Vm

open Assembly (Instruction)
open Machine

/-- Execution leads to a place with a memory that agrees with the wanted one, whatever the registers
hold before. -/
def Runs (rom : Array Word) (pc : Word) (memory : Memory) (pc' : Word) (wanted : Memory) : Prop :=
  ∀ a d, ∃ core, Agree wanted core.memory ∧ Leads rom pc ⟨memory, a, d⟩ pc' core

section Blocks

variable {address : String → Word} {rom : Array Word} {pc : Word} {memory wanted : Memory}

/-- Instructions that do not jump run to their end. -/
theorem runs_straight {block : List Instruction} (noJump : block.all straight = true)
    (held : Holds address rom pc block)
    (folded : ∀ a d, Agree wanted (block.foldl (Core.after address) ⟨memory, a, d⟩).memory) :
    Runs rom pc memory (pc + UInt16.ofNat (size block)) wanted :=
  fun a d => ⟨_, folded a d, leads_straight ⟨memory, a, d⟩ noJump held⟩

/-- The processor gets from a place to the place and the memory where execution leads. -/
theorem Runs.reaches {cpu : Cpu} {place : Word} (runs : Runs rom pc cpu.ram place wanted)
    (there : At cpu rom pc) :
    ∃ later, Reaches cpu later ∧ At later rom place ∧ Agree wanted later.ram := by
  obtain ⟨core, agrees, leads⟩ := runs cpu.a cpu.d
  obtain ⟨steps, reached⟩ := leads cpu.steps
  rw [← there.eq_cpu] at reached
  exact ⟨_, reached, ⟨rfl, rfl, rfl⟩, agrees⟩

/-! ## The names of the platform -/

/-- The static cells of a unit are where the assembler placed their symbols. -/
def staticCells (address : String → Word) (unit : String) (index : Nat) : Word :=
  address (staticSymbol unit index)

/-- A pointer has its cell. -/
theorem address_pointer (platform : Platform address) (pointer : Pointer) :
    address pointer.symbol = pointer.cell := by
  cases pointer
  · exact platform ("LCL", 1) (by decide)
  · exact platform ("ARG", 2) (by decide)
  · exact platform ("THIS", 3) (by decide)
  · exact platform ("THAT", 4) (by decide)

section Folding

variable (platform : Platform address)
include platform

private theorem address_sp : address "SP" = 0 := platform ("SP", 0) (by decide)

private theorem address_arg : address "ARG" = 2 := platform ("ARG", 2) (by decide)

private theorem address_lcl : address "LCL" = 1 := platform ("LCL", 1) (by decide)

private theorem address_r13 : address "R13" = 13 := platform ("R13", 13) (by decide)

private theorem address_r14 : address "R14" = 14 := platform ("R14", 14) (by decide)

/-! ## Symbolic execution -/

/-- Pushing `D`. -/
theorem after_pushD (core : Core) :
    pushD.foldl (Core.after address) core = ⟨core.memory.push core.d, 0, core.d⟩ := by
  simp [pushD, Instruction.store, Core.after, address_sp platform, Core.store, Core.value,
    Operands.value, Operands.word, binaryValue, Memory.push, Memory.stackPointer]

/-- Popping into `D`. -/
theorem after_popD (core : Core) :
    popD.foldl (Core.after address) core =
      ⟨core.memory.drop, core.memory.stackPointer - 1, core.memory.popped⟩ := by
  simp [popD, Instruction.store, Core.after, address_sp platform, Core.store, Core.value,
    Operands.value, Operands.word, binaryValue, Memory.drop, Memory.popped, Memory.stackPointer]

/-- Where the index of a segment lives is where its command addresses: no cell, a cell above a
pointer, or a cell with an address that one instruction loads. -/
theorem locate?_cases {unit : String} {segment : Segment} {index : Nat} {location : Location}
    (located : locate? {} unit segment index = some location) :
    (location = .constant index ∧
      ∀ memory, segmentCell? (staticCells address unit) memory segment index = none) ∨
    (∃ base : Pointer, location = .indirect base index ∧
      ∀ memory, segmentCell? (staticCells address unit) memory segment index =
        some (memory.read base.cell + UInt16.ofNat index)) ∨
    (∃ (load : Instruction) (cell : Word),
      (∀ core, Core.after address core load = { core with a := cell }) ∧
      location.push = [load, .store "D" "M"] ++ pushD ∧
      location.pop? {} = some (popD ++ [load, .store "M" "D"]) ∧
      ∀ memory, segmentCell? (staticCells address unit) memory segment index = some cell) := by
  have named (pointer : Pointer) (core : Core) :
      Core.after address core (.symbol pointer.symbol) = { core with a := pointer.cell } := by
    rw [Core.after, address_pointer platform]
  cases livesAt_of_locate? located with
  | constant small => exact .inl ⟨rfl, fun _ => rfl⟩
  | above base small =>
    refine .inr (.inl ⟨base, rfl, fun memory => ?_⟩)
    cases base <;> rfl
  | static index => exact .inr (.inr ⟨_, _, fun _ => rfl, rfl, rfl, fun _ => rfl⟩)
  | this => exact .inr (.inr ⟨_, _, named .this, rfl, rfl, fun _ => rfl⟩)
  | that => exact .inr (.inr ⟨_, _, named .that, rfl, rfl, fun _ => rfl⟩)
  | temp inside =>
    have small : index < 8 := inside
    have cell : UInt16.ofNat (Layout.tempCell {} index) = 5 + UInt16.ofNat index := by
      rw [Layout.tempCell, Nat.mod_eq_of_lt (by simp [Text.bound32]; omega), UInt16.ofNat_add]
      rfl
    exact .inr (.inr ⟨.address _, _, fun _ => rfl, rfl, rfl, fun _ => congrArg some cell.symm⟩)

/-- The block of a push has its effect. -/
theorem after_push (core : Core) {unit : String} {segment : Segment} {index : Nat}
    {location : Location} (located : locate? {} unit segment index = some location) :
    (location.push.foldl (Core.after address) core).memory =
      pushEffect (staticCells address unit) segment index core.memory := by
  unfold pushEffect
  rcases locate?_cases platform located with ⟨rfl, none⟩ | ⟨base, rfl, above⟩ |
    ⟨load, cell, loads, block, _, direct⟩
  · rw [none]
    simp [Location.push, after_pushD platform, Core.after, Instruction.store, Core.store,
      Core.value, Operands.value, Operands.word]
  · rw [above]
    simp [Location.push, after_pushD platform, Core.after, address_pointer platform,
      Instruction.store, Core.store, Core.value, Operands.value, Operands.word, binaryValue,
      UInt16.add_comm]
  · rw [direct, block, List.foldl_append, List.foldl_cons, loads, after_pushD platform]
    simp [Core.after, Instruction.store, Core.store, Core.value, Operands.value, Operands.word]

/-- The block of a pop has its effect outside the cell where it keeps the address. -/
theorem after_pop (core : Core) {unit : String} {segment : Segment} {index : Nat}
    {location : Location} {block : List Instruction} {cell : Word}
    (located : locate? {} unit segment index = some location) (block? : location.pop? {} = some block)
    (target : segmentCell? (staticCells address unit) core.memory segment index =
      some cell)
    (inside : StackCell (core.memory.stackPointer - 1)) :
    Agree (popEffect cell core.memory) (block.foldl (Core.after address) core).memory := by
  rcases locate?_cases platform located with ⟨rfl, _⟩ | ⟨base, rfl, above⟩ |
    ⟨load, loaded, loads, _, popped, direct⟩
  · contradiction
  · obtain rfl := Option.some.inj block?
    obtain rfl := Option.some.inj ((above _).symm.trans target)
    have scratch : Scratch 13 := .inl rfl
    have kept := (Agree.refl core.memory).write_scratch scratch
      (core.memory.read base.cell + UInt16.ofNat index)
    have register : (core.memory.write 13 (core.memory.read base.cell + UInt16.ofNat index)).drop.read
        13 = core.memory.read base.cell + UInt16.ofNat index := by
      rw [Memory.drop, Memory.read_write_of_ne (by decide), Memory.read_write_self]
    have result := kept.pop (core.memory.read base.cell + UInt16.ofNat index) inside
    have sum := UInt16.add_comm (UInt16.ofNat index) (core.memory.read base.cell)
    refine result.trans ?_
    simp [after_popD platform, Core.after, address_pointer platform, address_r13 platform,
      Instruction.store, Core.store, Core.value, Operands.value, Operands.word, binaryValue,
      sum, register, popEffect, Agree.refl]
  · obtain rfl := Option.some.inj (popped.symm.trans block?)
    obtain rfl := Option.some.inj ((direct _).symm.trans target)
    rw [List.foldl_append, after_popD platform, List.foldl_cons, loads]
    simp [Core.after, Instruction.store, Core.store, Core.value, Operands.value, Operands.word,
      popEffect, Agree.refl]

/-- The block of an operation that is no comparison has its effect. -/
theorem after_operate (core : Core) {operation : Operation} (plain : operation.isComparison = false)
    (done : String) :
    ((operation.block done).foldl (Core.after address) core).memory =
      operation.effect core.memory := by
  cases operation <;> simp [Operation.block, unaryBlock, binaryBlock, after_popD platform,
    Instruction.store, Core.after, address_sp platform, Core.store, Core.value, Operands.value,
    Operands.word, unaryValue, binaryValue, Operation.effect, Operation.isUnary, Operation.result,
    Operation.isComparison, Memory.read_zero, UInt16.add_comm, UInt16.and_comm,
    UInt16.or_comm] at plain ⊢

end Folding

/-! ## Blocks on the processor -/

/-- The instructions of a comparison before its jump: they put true where the result goes. -/
private def comparisonFront (done : String) : List Instruction :=
  popD ++ [.store "A" "A-1", .store "D" "M-D", .store "M" "-1", .symbol done]

/-- The instructions of a comparison after its jump: they put false where the result goes. -/
private def comparisonClear : List Instruction :=
  [.symbol "SP", .store "A" "M-1", .store "M" "0"]

/-- The instructions of a call that place the pointers of the callee, but for the last. -/
private def callPointers (args : Nat) : List Instruction :=
  [.symbol "SP", .store "D" "M", .address (frameSize + args), .store "D" "D-A",
    .symbol "ARG", .store "M" "D", .symbol "SP", .store "D" "M", .symbol "LCL"]

/-- The instructions of a call that place the pointers of the callee and load its address. -/
private def callPlace (name : String) (args : Nat) : List Instruction :=
  callPointers args ++ [.store "M" "D", .symbol name]

/-- The instructions that push the return address. -/
private def callOpen (back : String) : List Instruction :=
  [.symbol back, .store "D" "A"] ++ pushD

/-- The instructions that save pointers on the stack. -/
private def callSave (pointers : List Pointer) : List Instruction :=
  pointers.flatMap fun pointer => [.symbol pointer.symbol, .store "D" "M"] ++ pushD

/-- The instructions of a call before its jump. -/
private def callFront (name : String) (args : Nat) (back : String) : List Instruction :=
  callOpen back ++ callSave savedPointers ++ callPlace name args

private theorem callBlock_eq (name : String) (args : Nat) (back : String) :
    callBlock name args back = callFront name args back ++ ([.jump "0" "JMP"] ++ [.label back]) := by
  simp [callBlock, callFront, callOpen, callSave, callPlace, callPointers]

/-- The instructions of a return that keep the frame pointer and the return address. -/
private def returnOpen : List Instruction :=
  [.symbol "LCL", .store "D" "M", .symbol "R13", .store "M" "D", .address 5, .store "A" "D-A",
    .store "D" "M", .symbol "R14", .store "M" "D"]

/-- The instructions of a return that deliver the result. -/
private def returnDeliver : List Instruction :=
  popD ++ [.symbol "ARG", .store "A" "M", .store "M" "D", .symbol "ARG", .store "D" "M+1",
    .symbol "SP", .store "M" "D"]

/-- The instructions of a return before its jump. -/
private def returnFront : List Instruction :=
  returnOpen ++ returnDeliver ++ savedPointers.reverse.flatMap (restoreBlock {}) ++
    [.symbol "R14", .store "A" "M"]

section Running

variable (platform : Platform address)
include platform

private theorem after_comparisonFront (core : Core) (done : String) :
    (comparisonFront done).foldl (Core.after address) core =
      ⟨core.memory.drop.write (core.memory.drop.stackPointer - 1) (-1), address done,
        core.memory.drop.read (core.memory.drop.stackPointer - 1) - core.memory.popped⟩ := by
  simp [comparisonFront, after_popD platform, Core.after, Instruction.store, Core.store,
    Core.value, Operands.value, Operands.word, unaryValue, binaryValue]

private theorem after_comparisonClear (core : Core) :
    (comparisonClear.foldl (Core.after address) core).memory =
      core.memory.write (core.memory.stackPointer - 1) 0 := by
  simp [comparisonClear, Core.after, Instruction.store, Core.store, address_sp platform,
    Core.value, Operands.value, Operands.word, binaryValue, Memory.read_zero]

/-- The block of a comparison leaves the truth value that its jump condition has on the difference
of the two words. -/
theorem leads_comparison {condition done : String} (conditional : condition ≠ "JMP")
    (apart : (memory.drop.stackPointer - 1).toNat % 32768 ≠ 0)
    (held : Holds address rom pc (comparisonBlock condition done)) (a d : Word) :
    ∃ core, core.memory = memory.drop.write (memory.drop.stackPointer - 1)
        (truth (jumpTaken condition
          (memory.drop.read (memory.drop.stackPointer - 1) - memory.popped))) ∧
      Leads rom pc ⟨memory, a, d⟩ (pc + UInt16.ofNat (size (comparisonBlock condition done)))
        core := by
  have split : comparisonBlock condition done = comparisonFront done ++
      ([Instruction.jump "D" condition] ++ (comparisonClear ++ [Instruction.label done])) := rfl
  have computes (core : Core) : core.value "D" = core.d := rfl
  rw [split, holds_append, holds_append, holds_append] at held
  obtain ⟨heldFront, heldJump, heldClear, heldLabel, _⟩ := held
  have first := leads_straight ⟨memory, a, d⟩ rfl heldFront
  rw [after_comparisonFront platform ⟨memory, a, d⟩] at first
  have second := first.trans (leads_jump _ heldJump fun always => absurd always conditional)
  rw [computes] at second
  have last : pc + UInt16.ofNat (size (comparisonFront done)) + 1 +
      UInt16.ofNat (size comparisonClear) =
      pc + UInt16.ofNat (size (comparisonBlock condition done)) := by
    rw [show (1 : Word) = UInt16.ofNat 1 from rfl]
    simp only [UInt16.add_assoc, ← UInt16.ofNat_add]
    rfl
  replace heldLabel := heldLabel.trans last
  -- The jump is taken exactly if the truth value that stands there already is the right one.
  by_cases taken : jumpTaken condition
      (memory.drop.read (memory.drop.stackPointer - 1) - memory.popped) = true
  · rw [if_pos taken, heldLabel] at second
    rw [taken, truth, if_pos rfl]
    exact ⟨_, rfl, second⟩
  · rw [if_neg taken] at second
    have third := second.trans (leads_straight _ rfl heldClear)
    have pointer : (memory.drop.write (memory.drop.stackPointer - 1) (-1)).stackPointer =
        memory.drop.stackPointer := by
      rw [Memory.stackPointer, Memory.read_write_of_ne apart, Memory.stackPointer]
    rw [last] at third
    have cleared := after_comparisonClear platform
      ⟨memory.drop.write (memory.drop.stackPointer - 1) (-1), address done,
        memory.drop.read (memory.drop.stackPointer - 1) - memory.popped⟩
    rw [pointer, Memory.write_write] at cleared
    rw [truth, if_neg taken, ← cleared]
    exact ⟨_, rfl, third⟩

/-- Execution leads through the block of a comparison with its effect and nothing else. -/
theorem leads_compare {operation : Operation} {done : String}
    (comparison : operation.isComparison = true)
    (apart : (memory.stackPointer - 1 - 1).toNat % 32768 ≠ 0)
    (held : Holds address rom pc (operation.block done)) (a d : Word) :
    ∃ core, core.memory = operation.effect memory ∧
      Leads rom pc ⟨memory, a, d⟩ (pc + UInt16.ofNat (size (operation.block done))) core := by
  rw [← Memory.stackPointer_drop] at apart
  cases operation <;> simp only [Operation.isComparison, Bool.false_eq_true] at comparison
  · exact leads_comparison platform (by decide) apart held a d
  · exact leads_comparison platform (by decide) apart held a d
  · exact leads_comparison platform (by decide) apart held a d

/-- The block of an operation has its effect. -/
theorem runs_operate {operation : Operation} {done : String}
    (inside : operation.isUnary = false → StackCell (memory.stackPointer - 1 - 1))
    (held : Holds address rom pc (operation.block done)) :
    Runs rom pc memory (pc + UInt16.ofNat (size (operation.block done)))
      (operation.effect memory) := by
  by_cases plain : operation.isComparison = false
  · refine runs_straight ?_ held fun a d => .of_eq (after_operate platform ⟨memory, a, d⟩ plain done).symm
    cases operation <;> simp only [Operation.isComparison, Bool.true_eq_false] at plain <;> rfl
  · have comparison : operation.isComparison = true := by simpa using plain
    have binary : operation.isUnary = false := by
      cases operation <;> simp only [Operation.isComparison, Bool.false_eq_true] at comparison <;>
        rfl
    have apart : (memory.stackPointer - 1 - 1).toNat % 32768 ≠ 0 := by
      obtain ⟨low, high⟩ := inside binary
      omega
    intro a d
    obtain ⟨core, left, leads⟩ := leads_compare platform comparison apart held a d
    exact ⟨core, .of_eq left.symm, leads⟩

/-- A push runs to its end. -/
theorem runs_push {unit : String} {segment : Segment} {index : Nat} {location : Location}
    (located : locate? {} unit segment index = some location)
    (held : Holds address rom pc location.push) :
    Runs rom pc memory (pc + UInt16.ofNat (size location.push))
      (pushEffect (staticCells address unit) segment index memory) := by
  refine runs_straight ?_ held fun a d => .of_eq (after_push platform ⟨memory, a, d⟩ located).symm
  cases location <;> rfl

/-- A pop runs to its end. -/
theorem runs_pop {unit : String} {segment : Segment} {index : Nat} {location : Location}
    {block : List Instruction} {cell : Word}
    (located : locate? {} unit segment index = some location) (block? : location.pop? {} = some block)
    (target : segmentCell? (staticCells address unit) memory segment index = some cell)
    (inside : StackCell (memory.stackPointer - 1)) (held : Holds address rom pc block) :
    Runs rom pc memory (pc + UInt16.ofNat (size block)) (popEffect cell memory) := by
  refine runs_straight ?_ held fun a d => after_pop platform ⟨memory, a, d⟩ located block? target inside
  cases location <;> simp only [Location.pop?, reduceCtorEq, Option.some.injEq] at block? <;>
    obtain rfl := block? <;> rfl

omit platform in
/-- A jump goes to its label, unless that is where the jump itself stands. -/
theorem runs_goto {label : String} (awake : address label ≠ pc)
    (held : Holds address rom pc (gotoBlock label)) :
    Runs rom pc memory (address label) memory := by
  intro a d
  rw [gotoBlock, ← List.singleton_append, holds_append] at held
  obtain ⟨heldLoad, heldJump⟩ := held
  have loaded := leads_straight ⟨memory, a, d⟩ rfl heldLoad
  have jumped := leads_always ⟨memory, address label, d⟩ heldJump fun same =>
    awake ((UInt16.add_left_inj 1).mp same)
  exact ⟨_, .refl _, loaded.trans jumped⟩

omit platform in
/-- A jump to where it stands halts the processor there. -/
theorem halts_goto {label : String} {cpu : Cpu} (asleep : address label = pc)
    (held : Holds address rom pc (gotoBlock label)) (there : At cpu rom pc) :
    ∃ later, Reaches cpu later ∧ later.halted = true ∧ later.pc = pc ∧ later.ram = cpu.ram := by
  rw [gotoBlock, ← List.singleton_append, holds_append] at held
  obtain ⟨heldLoad, heldJump⟩ := held
  obtain ⟨steps, loaded⟩ := leads_straight ⟨cpu.ram, cpu.a, cpu.d⟩ rfl heldLoad cpu.steps
  obtain ⟨later, jumped, halted, place, kept⟩ :=
    halts_always ⟨cpu.ram, address label, cpu.d⟩ heldJump (by rw [asleep]; rfl) steps
  rw [← there.eq_cpu] at loaded
  exact ⟨later, loaded.trans jumped, halted, place.trans asleep, kept⟩

/-- A conditional jump pops a word, and goes to its label unless the word is zero. -/
theorem runs_ifGoto {label : String} (held : Holds address rom pc (ifGotoBlock label)) :
    Runs rom pc memory
      (if memory.popped = 0 then pc + UInt16.ofNat (size (ifGotoBlock label)) else address label)
      memory.drop := by
  intro a d
  have split : ifGotoBlock label =
      (popD ++ [Instruction.symbol label]) ++ [Instruction.jump "D" "JNE"] := rfl
  have last : pc + UInt16.ofNat (size (popD ++ [Instruction.symbol label])) + 1 =
      pc + UInt16.ofNat (size (ifGotoBlock label)) := by
    rw [split, size_append _ [_], UInt16.ofNat_add, UInt16.add_assoc]
    rfl
  have taken (word : Word) : jumpTaken "JNE" word = decide (word ≠ 0) := by
    rw [jumpTaken, Bool.eq_iff_iff, decide_eq_true_eq, decide_eq_true_eq, not_iff_not,
      signed_eq_zero_iff]
  rw [split, holds_append] at held
  have popped := leads_straight ⟨memory, a, d⟩ rfl held.1
  rw [List.foldl_append, after_popD platform] at popped
  have jumped := popped.trans (leads_jump _ held.2 fun always => absurd always (by decide))
  have computes (core : Core) : core.value "D" = core.d := rfl
  rw [taken, last, computes] at jumped
  change Leads _ _ _ (if decide (memory.popped ≠ 0) = true then address label else _) _ at jumped
  by_cases zero : memory.popped = 0
  · rw [if_neg (by simpa using zero)] at jumped
    rw [if_pos zero]
    exact ⟨_, .refl _, jumped⟩
  · rw [if_pos (by simpa using zero)] at jumped
    rw [if_neg zero]
    exact ⟨_, .refl _, jumped⟩

/-- The block of a function pushes a zero for each local. -/
theorem after_function (core : Core) (name : String) (locals : Nat) :
    ((functionBlock name locals).foldl (Core.after address) core).memory =
      functionEffect locals core.memory := by
  rw [functionBlock, List.foldl_cons, Core.after]
  induction locals generalizing core with
  | zero => rfl
  | succ locals ih =>
    rw [List.replicate_succ, List.flatten_cons, List.foldl_append, ih, functionEffect]
    congr 1
    simp [pushZero, Core.after, Instruction.store, address_sp platform, Core.store, Core.value,
      Operands.value, Operands.word, binaryValue, Memory.push, Memory.read_zero]

/-- The entry of a function runs to its end. -/
theorem runs_function {name : String} {locals : Nat}
    (held : Holds address rom pc (functionBlock name locals)) :
    Runs rom pc memory (pc + UInt16.ofNat (size (functionBlock name locals)))
      (functionEffect locals memory) := by
  refine runs_straight ?_ held fun a d =>
    .of_eq (after_function platform ⟨memory, a, d⟩ name locals).symm
  refine List.all_eq_true.mpr fun instruction member => ?_
  rcases List.mem_cons.mp member with rfl | member
  · rfl
  · obtain ⟨block, copy, inside⟩ := List.mem_flatten.mp member
    obtain rfl := List.eq_of_mem_replicate copy
    simp only [pushZero, List.mem_cons, List.not_mem_nil, or_false] at inside
    rcases inside with rfl | rfl | rfl | rfl | rfl <;> rfl

private theorem after_callSave (core : Core) (pointers : List Pointer) :
    ((callSave pointers).foldl (Core.after address) core).memory =
      pushPointers core.memory pointers := by
  induction pointers generalizing core with
  | nil => rfl
  | cons pointer rest ih =>
    rw [callSave, List.flatMap_cons, ← callSave, List.foldl_append, ih, List.foldl_append,
      after_pushD platform]
    simp [Core.after, Instruction.store, address_pointer platform, Core.store, Core.value,
      Operands.value, Operands.word, pushPointers]

private theorem after_callPlace (core : Core) (name : String) (args : Nat) :
    let placed := core.memory.write Pointer.arg.cell
      (core.memory.stackPointer - UInt16.ofNat (5 + args))
    ((callPlace name args).foldl (Core.after address) core).memory =
        placed.write Pointer.lcl.cell placed.stackPointer ∧
      ((callPlace name args).foldl (Core.after address) core).a = address name := by
  simp [callPlace, callPointers, Core.after, Instruction.store, address_sp platform, address_arg platform,
    address_lcl platform, Core.store, Core.value, Operands.value, Operands.word, binaryValue,
    Memory.read_zero, frameSize, savedPointers, Pointer.cell]

private theorem after_callFront (core : Core) (name : String) (args : Nat) (back : String) :
    ((callFront name args back).foldl (Core.after address) core).memory =
        callEffect (address back) args core.memory ∧
      ((callFront name args back).foldl (Core.after address) core).a = address name := by
  have framed : ((callOpen back ++ callSave savedPointers).foldl (Core.after address) core).memory =
      pushPointers (core.memory.push (address back)) savedPointers := by
    rw [List.foldl_append, after_callSave platform, callOpen, List.foldl_append,
      after_pushD platform]
    rfl
  rw [callFront, List.foldl_append]
  refine (after_callPlace platform _ name args).imp_left fun placed => placed.trans ?_
  rw [framed]
  rfl

omit platform in
/-- The label of a call is the place behind it. -/
theorem address_back {name back : String} {args : Nat}
    (held : Holds address rom pc (callBlock name args back)) :
    address back = pc + UInt16.ofNat (size (callBlock name args back)) := by
  have total : size (callBlock name args back) = size (callFront name args back) + 1 := rfl
  rw [callBlock_eq, holds_append, holds_append] at held
  rw [total, UInt16.ofNat_add, ← UInt16.add_assoc]
  exact held.2.2.1

omit platform in
/-- A call leads to its function with a frame pushed. -/
theorem runs_call {code : List Instruction} {name back : String} {args : Nat}
    (loaded : Loaded address rom code) (label : .label name ∈ code)
    (stands : StandsAt code (callBlock name args back) pc) :
    Runs rom pc memory (address name) (callEffect (address back) args memory) := by
  intro a d
  have held := loaded.holds stands
  rw [callBlock_eq] at held stands
  -- The function does not start in front of the jump, so the jump does not halt the processor.
  have split :
      callFront name args back ++ ([Instruction.jump "0" "JMP"] ++ [Instruction.label back]) =
        (callOpen back ++ callSave savedPointers ++ callPointers args) ++
          [Instruction.store "M" "D", .symbol name] ++
            ([Instruction.jump "0" "JMP"] ++ [Instruction.label back]) := rfl
  rw [split] at stands
  have awake := loaded.address_ne label stands.middle rfl rfl
  have width : size (callFront name args back) =
      size (callOpen back ++ callSave savedPointers ++ callPointers args) + 2 := rfl
  rw [holds_append, holds_append] at held
  obtain ⟨heldFront, heldJump, _⟩ := held
  have front := leads_straight ⟨memory, a, d⟩ rfl heldFront
  obtain ⟨placed, target⟩ := after_callFront loaded.platform ⟨memory, a, d⟩ name args back
  have jumped := leads_always _ heldJump fun same => awake (by
    rw [target, width, UInt16.ofNat_add, ← UInt16.add_assoc, show UInt16.ofNat 2 = 1 + 1 from rfl,
      ← UInt16.add_assoc] at same
    exact (UInt16.add_left_inj 1).mp same)
  rw [target] at jumped
  exact ⟨_, .of_eq placed.symm, front.trans jumped⟩

private theorem after_returnOpen (core : Core) :
    let kept := core.memory.write 13 (core.memory.read Pointer.lcl.cell)
    (returnOpen.foldl (Core.after address) core).memory =
      kept.write 14 (kept.read (core.memory.read Pointer.lcl.cell - 5)) := by
  simp [returnOpen, Core.after, Instruction.store, address_lcl platform, address_r13 platform,
    address_r14 platform, Core.store, Core.value, Operands.value, Operands.word, binaryValue,
    Pointer.cell]

private theorem after_returnDeliver (core : Core) :
    (returnDeliver.foldl (Core.after address) core).memory = deliver core.memory := by
  simp [returnDeliver, after_popD platform, Core.after, Instruction.store, address_sp platform,
    address_arg platform, Core.store, Core.value, Operands.value, Operands.word, binaryValue,
    deliver, Pointer.cell]

private theorem after_restoreBlock (core : Core) (pointer : Pointer) :
    let lowered := core.memory.write 13 (core.memory.read 13 - 1)
    ((restoreBlock {} pointer).foldl (Core.after address) core).memory =
      lowered.write pointer.cell (lowered.read (core.memory.read 13 - 1)) := by
  simp [restoreBlock, Core.after, Instruction.store, address_r13 platform,
    address_pointer platform, Core.store, Core.value, Operands.value, Operands.word, binaryValue]

/-- The instructions that restore pointers from a frame that the frame register names the end of
have the effect, and leave the return address alone. -/
private theorem after_restoreBlocks (core : Core) (pointers : List Pointer) {wanted : Memory}
    (same : Agree wanted core.memory)
    (inside : ∀ depth < pointers.length, StackCell (core.memory.read 13 - 1 - UInt16.ofNat depth)) :
    let memory := ((pointers.flatMap (restoreBlock {})).foldl (Core.after address) core).memory
    Agree (restorePointers wanted (core.memory.read 13) pointers) memory ∧
      memory.read 14 = core.memory.read 14 := by
  induction pointers generalizing core wanted with
  | nil => exact ⟨same, rfl⟩
  | cons pointer rest ih =>
    obtain ⟨first, below⟩ := stackCells_below inside
    have bounds := pointer_cell_bounds pointer
    have moved := after_restoreBlock platform core pointer
    have lowest : (core.memory.write 13 (core.memory.read 13 - 1)).read (core.memory.read 13 - 1) =
        core.memory.read (core.memory.read 13 - 1) := by
      obtain ⟨low, high⟩ := first
      exact Memory.read_write_of_ne (by change 13 ≠ _; omega)
    simp only [lowest] at moved
    have register : ((restoreBlock {} pointer).foldl (Core.after address) core).memory.read 13 =
        core.memory.read 13 - 1 := by
      rw [moved, Memory.read_write_of_ne (by change _ ≠ 13; omega), Memory.read_write_self]
    have kept : ((restoreBlock {} pointer).foldl (Core.after address) core).memory.read 14 =
        core.memory.read 14 := by
      rw [moved, Memory.read_write_of_ne (by change _ ≠ 14; omega),
        Memory.read_write_of_ne (by decide)]
    have next := (same.write_scratch (.inl rfl : Scratch 13) (core.memory.read 13 - 1)).write
      pointer.cell (core.memory.read (core.memory.read 13 - 1))
    rw [← moved] at next
    rw [← register] at below
    obtain ⟨agrees, address⟩ := ih _ next below
    rw [List.flatMap_cons, List.foldl_append]
    rw [register, ← same _ (Agree.not_scratch_of_stackCell first)] at agrees
    exact ⟨agrees, address.trans kept⟩

/-- The instructions of a return before its jump have its effect, and load the address where it
goes. -/
private theorem after_returnFront (core : Core) (top : StackCell (core.memory.stackPointer - 1))
    (frame : ∀ depth < 5, StackCell (core.memory.read Pointer.lcl.cell - 1 - UInt16.ofNat depth))
    (first : StackCell (core.memory.read Pointer.arg.cell)) :
    Agree (returnEffect core.memory) (returnFront.foldl (Core.after address) core).memory ∧
      (returnFront.foldl (Core.after address) core).a = returnTarget core.memory := by
  have lowest := stackCell_lowest frame
  have kept := (Agree.refl core.memory).write_scratch (.inl rfl : Scratch 13)
    (core.memory.read Pointer.lcl.cell)
  have opened := after_returnOpen platform core
  simp only [← kept _ (Agree.not_scratch_of_stackCell lowest)] at opened
  have agrees := kept.write_scratch (.inr rfl : Scratch 14) (returnTarget core.memory)
  rw [returnTarget, ← opened] at agrees
  have frameRegister : (returnOpen.foldl (Core.after address) core).memory.read 13 =
      core.memory.read Pointer.lcl.cell := by
    rw [opened, Memory.read_write_of_ne (by decide), Memory.read_write_self]
  have returnRegister : (returnOpen.foldl (Core.after address) core).memory.read 14 =
      returnTarget core.memory := by
    rw [opened, Memory.read_write_self, returnTarget]
  rw [agrees.pointer .arg] at first
  have delivers (place : Word) (register : place = 13 ∨ place = 14) :
      (returnDeliver.foldl (Core.after address)
        (returnOpen.foldl (Core.after address) core)).memory.read place =
      (returnOpen.foldl (Core.after address) core).memory.read place := by
    obtain ⟨low, high⟩ := first
    rw [after_returnDeliver platform]
    rcases register with rfl | rfl
    · exact read_deliver (by decide) (by change _ ≠ 13; omega)
    · exact read_deliver (by decide) (by change _ ≠ 14; omega)
  have delivered := agrees.deliver top
  rw [← after_returnDeliver platform (returnOpen.foldl (Core.after address) core)] at delivered
  have base := (delivers 13 (.inl rfl)).trans frameRegister
  have restored := after_restoreBlocks platform _ savedPointers.reverse delivered
    (by rw [base]; exact fun depth within => frame depth (by simp [savedPointers] at within; omega))
  rw [base, delivers 14 (.inr rfl), returnRegister] at restored
  rw [returnFront, List.foldl_append, List.foldl_append, List.foldl_append]
  obtain ⟨same, target⟩ := restored
  generalize (savedPointers.reverse.flatMap (restoreBlock {})).foldl (Core.after address)
    (returnDeliver.foldl (Core.after address) (returnOpen.foldl (Core.after address) core)) = last
    at same target ⊢
  have loaded : [Instruction.symbol "R14", .store "A" "M"].foldl (Core.after address) last =
      ⟨last.memory, last.memory.read 14, last.d⟩ := by
    simp [Core.after, Instruction.store, address_r14 platform, Core.store, Core.value,
      Operands.value, Operands.word]
  rw [loaded]
  exact ⟨same, target⟩

omit platform in
/-- A return to a label leads there, with the frame taken down. -/
theorem runs_return {code : List Instruction} {back : String} (loaded : Loaded address rom code)
    (label : .label back ∈ code) (target : returnTarget memory = address back)
    (top : StackCell (memory.stackPointer - 1))
    (frame : ∀ depth < 5, StackCell (memory.read Pointer.lcl.cell - 1 - UInt16.ofNat depth))
    (first : StackCell (memory.read Pointer.arg.cell))
    (stands : StandsAt code (returnBlock {}) pc) :
    Runs rom pc memory (address back) (returnEffect memory) := by
  intro a d
  have held := loaded.holds stands
  have split : returnBlock {} = returnOpen ++ returnDeliver ++
      savedPointers.reverse.flatMap (restoreBlock {}) ++
        [Instruction.symbol "R14", .store "A" "M"] ++ [Instruction.jump "0" "JMP"] := rfl
  rw [split] at held stands
  have awake := loaded.address_ne label stands.middle rfl rfl
  have width : size returnFront = size (returnOpen ++ returnDeliver ++
      savedPointers.reverse.flatMap (restoreBlock {})) + 2 := rfl
  rw [← returnFront, holds_append] at held
  have front := leads_straight ⟨memory, a, d⟩ rfl held.1
  obtain ⟨restored, loads⟩ := after_returnFront loaded.platform ⟨memory, a, d⟩ top frame first
  have jumped := leads_always _ held.2 fun same => awake (by
    rw [loads, target, width, UInt16.ofNat_add, ← UInt16.add_assoc,
      show UInt16.ofNat 2 = 1 + 1 from rfl, ← UInt16.add_assoc] at same
    exact (UInt16.add_left_inj 1).mp same)
  rw [loads, target] at jumped
  exact ⟨_, restored, front.trans jumped⟩

end Running

end Blocks

end JackToolchain.Vm
