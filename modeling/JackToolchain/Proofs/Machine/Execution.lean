import JackToolchain.Fault
import JackToolchain.Assembly.SymbolTable
import JackToolchain.Proofs.Machine.Computation
import JackToolchain.Proofs.Machine.Memory
import Mathlib.Logic.Relation

/-!
# Execution of placed instructions

`Holds` says that the program memory has the words of some instructions from an address on, and
that the labels among them have the addresses where they stand. `Leads` says that the processor
gets from one place to another without halting. Instructions that do not jump are executed one
after another (`leads_straight`); a jump halts the processor only if it is unconditional and goes
to the instruction in front of it (`leads_jump`).
-/
namespace JackToolchain.Machine

open Assembly (Instruction encodeCompute? predefined)

/-! ## Placed instructions -/

/-- The number of words that instructions take; a label takes none. -/
def size : List Instruction → Nat
  | [] => 0
  | .label _ :: rest => size rest
  | _ :: rest => size rest + 1

/-- The word of an instruction, given the addresses of the symbols. A number or an address is loaded
by a word only if it is below 2^15. -/
def wordOf? (address : String → Word) : Instruction → Option Word
  | .address value => if value ≤ 32767 then some (UInt16.ofNat value) else none
  | .symbol name => if (address name).toNat ≤ 32767 then some (address name) else none
  | .compute dest comp jump => encodeCompute? dest comp jump
  | .label _ => none

/-- The program memory has the words of the instructions from an address on, and each label among
them has the address of the next word. -/
def Holds (address : String → Word) (rom : Array Word) : Word → List Instruction → Prop
  | _, [] => True
  | start, .label name :: rest => address name = start ∧ Holds address rom start rest
  | start, instruction :: rest =>
    ((wordOf? address instruction).isSome ∧ rom[start.toNat]? = wordOf? address instruction) ∧
      Holds address rom (start + 1) rest

/-- Whether instructions are placed can be computed. -/
instance decidableHolds (address : String → Word) (rom : Array Word) :
    (start : Word) → (code : List Instruction) → Decidable (Holds address rom start code)
  | _, [] => .isTrue trivial
  | start, .label name :: rest =>
    have := decidableHolds address rom start rest
    inferInstanceAs (Decidable (address name = start ∧ _))
  | start, .address value :: rest =>
    have := decidableHolds address rom (start + 1) rest
    inferInstanceAs (Decidable ((_ ∧ rom[start.toNat]? = wordOf? address (.address value)) ∧ _))
  | start, .symbol name :: rest =>
    have := decidableHolds address rom (start + 1) rest
    inferInstanceAs (Decidable ((_ ∧ rom[start.toNat]? = wordOf? address (.symbol name)) ∧ _))
  | start, .compute dest comp jump :: rest =>
    have := decidableHolds address rom (start + 1) rest
    inferInstanceAs (Decidable
      ((_ ∧ rom[start.toNat]? = wordOf? address (.compute dest comp jump)) ∧ _))

/-- The names of the platform have their addresses. -/
def Platform (address : String → Word) : Prop := ∀ row ∈ predefined, address row.1 = row.2

section Placement

variable {address : String → Word} {rom : Array Word} {start : Word}

/-- The size of consecutive instructions. -/
@[simp] theorem size_append (front back : List Instruction) :
    size (front ++ back) = size front + size back := by
  induction front with
  | nil => simp [size]
  | cons instruction rest ih =>
    cases instruction <;> simp only [List.cons_append, size, ih]
    all_goals omega

/-- Consecutive instructions are placed one behind the other. -/
theorem holds_append {front back : List Instruction} :
    Holds address rom start (front ++ back) ↔
      Holds address rom start front ∧
        Holds address rom (start + UInt16.ofNat (size front)) back := by
  induction front generalizing start with
  | nil => simp [Holds, size]
  | cons instruction rest ih =>
    have next : start + 1 + UInt16.ofNat (size rest) = start + UInt16.ofNat (size rest + 1) := by
      rw [UInt16.ofNat_add]
      grind
    cases instruction <;> simp only [List.cons_append, Holds, size, ih, next, and_assoc]

/-- The word of a placed instruction is in the program memory. -/
theorem Holds.fetch {instruction : Instruction} {rest : List Instruction}
    (held : Holds address rom start (instruction :: rest)) (isWord : size [instruction] = 1) :
    ∃ word, rom[start.toNat]? = some word ∧ wordOf? address instruction = some word := by
  have placed : (wordOf? address instruction).isSome ∧
      rom[start.toNat]? = wordOf? address instruction := by
    cases instruction with
    | label name => contradiction
    | _ => exact held.1
  obtain ⟨word, encoded⟩ := Option.isSome_iff_exists.mp placed.1
  exact ⟨word, placed.2.trans encoded, encoded⟩

/-- The part of a placed program between two others. -/
theorem Holds.middle {front middle back : List Instruction}
    (held : Holds address rom start (front ++ middle ++ back)) :
    Holds address rom (start + UInt16.ofNat (size front)) middle :=
  (holds_append.mp (holds_append.mp held).1).2

/-- Whether instructions stand at a place of a program. -/
def StandsAt (code block : List Instruction) (place : Word) : Prop :=
  ∃ before after, code = before ++ block ++ after ∧ place = UInt16.ofNat (size before)

/-- A part of a block stands behind what is in front of it. -/
theorem StandsAt.middle {code front block back : List Instruction} {place : Word}
    (stands : StandsAt code (front ++ block ++ back) place) :
    StandsAt code block (place + UInt16.ofNat (size front)) := by
  obtain ⟨before, after, rfl, rfl⟩ := stands
  refine ⟨before ++ front, back ++ after, by simp only [List.append_assoc], ?_⟩
  rw [size_append, UInt16.ofNat_add]

/-- The instructions of a block that stands in a program are instructions of it. -/
theorem StandsAt.mem {code block : List Instruction} {place : Word} {instruction : Instruction}
    (stands : StandsAt code block place) (member : instruction ∈ block) : instruction ∈ code := by
  obtain ⟨before, after, rfl, _⟩ := stands
  exact List.mem_append_left _ (List.mem_append_right _ member)

/-- A program is in the program memory and fits there, and every symbol of the platform has its
address. -/
structure Loaded (address : String → Word) (rom : Array Word) (code : List Instruction) : Prop where
  /-- The names of the platform have their addresses. -/
  platform : Platform address
  /-- The words of the program start at address zero. -/
  held : Holds address rom 0 code
  /-- The program memory holds that many words. -/
  fits : size code ≤ romSize

namespace Loaded

variable {code block : List Instruction} {place : Word}

/-- A block of a program is held where it stands. -/
theorem holds (loaded : Loaded address rom code) (stands : StandsAt code block place) :
    Holds address rom place block := by
  obtain ⟨before, after, rfl, rfl⟩ := stands
  have middle := loaded.held.middle
  rwa [UInt16.zero_add] at middle

/-- No label of a program stands between two instructions that follow each other. -/
theorem address_ne (loaded : Loaded address rom code) {name : String} {first second : Instruction}
    (label : .label name ∈ code) (stands : StandsAt code [first, second] place)
    (firstWord : size [first] = 1) (secondWord : size [second] = 1) :
    address name ≠ place + 1 := by
  obtain ⟨front, back, split, rfl⟩ := stands
  obtain ⟨before, after, rfl⟩ := List.append_of_mem label
  have fits := loaded.fits
  have bound : romSize = 32768 := rfl
  have named : address name = UInt16.ofNat (size before) := by
    have held := (holds_append.mp loaded.held).2
    rw [UInt16.zero_add] at held
    exact held.1
  have apart : size before ≠ size front + 1 := by
    rw [List.append_assoc] at split
    rcases List.append_eq_append_iff.mp split with ⟨between, rfl, _⟩ | ⟨between, rfl, rest⟩
    · rw [size_append]
      omega
    · match between, rest with
      | [], rest =>
        obtain rfl : first = .label name := (List.cons.inj rest).1
        contradiction
      | [only], rest =>
        obtain rfl : second = .label name := (List.cons.inj (List.cons.inj rest).2).1
        contradiction
      | one :: two :: others, rest =>
        obtain rfl : first = one := (List.cons.inj rest).1
        obtain rfl : second = two := (List.cons.inj (List.cons.inj rest).2).1
        rw [show front ++ first :: second :: others = front ++ ([first] ++ ([second] ++ others))
          from rfl, size_append, size_append, size_append]
        omega
  have frontFits : size front ≤ size (before ++ .label name :: after) := by
    rw [split, size_append, size_append]
    omega
  rw [size_append] at fits frontFits
  rw [named]
  intro same
  have equal := congrArg UInt16.toNat same
  rw [UInt16.toNat_add, UInt16.toNat_ofNat', UInt16.toNat_ofNat'] at equal
  change size before % 65536 = (size front % 65536 + 1) % 65536 at equal
  omega

end Loaded

end Placement

/-! ## Straight execution -/

/-- What instructions compute with. -/
structure Core where
  /-- The memory. -/
  memory : Memory
  /-- The address register. -/
  a : Word
  /-- The data register. -/
  d : Word

namespace Core

/-- The value of a written computation. -/
def value (core : Core) (comp : String) : Word :=
  Operands.value ⟨core.d, core.a, core.memory.read core.a⟩ comp.toList

/-- The registers and the memory with a computed word stored. -/
def store (core : Core) (dest : String) (out : Word) : Core where
  memory := if 'M' ∈ dest.toList then core.memory.write core.a out else core.memory
  a := if 'A' ∈ dest.toList then out else core.a
  d := if 'D' ∈ dest.toList then out else core.d

/-- The registers and the memory after an instruction, apart from where it goes on. -/
def after (address : String → Word) (core : Core) : Instruction → Core
  | .address value => { core with a := UInt16.ofNat value }
  | .symbol name => { core with a := address name }
  | .compute dest comp _ => core.store dest (core.value comp)
  | .label _ => core

/-- The processor that is about to execute the instruction at `pc`. -/
def cpu (core : Core) (rom : Array Word) (pc : Word) (steps : Nat) : Cpu where
  rom := rom
  ram := core.memory
  a := core.a
  d := core.d
  pc := pc
  steps := steps
  halted := false

end Core

/-- A processor gets into another state by executing instructions. -/
def Reaches : Cpu → Cpu → Prop :=
  Relation.ReflTransGen fun cpu next => cpu.step? = some next

/-- Whatever the count of executed instructions, execution leads from one place to another. -/
def Leads (rom : Array Word) (pc : Word) (core : Core) (pc' : Word) (core' : Core) : Prop :=
  ∀ steps, ∃ steps', Reaches (core.cpu rom pc steps) (core'.cpu rom pc' steps')

/-- The processor is about to execute the instruction at a place of a program. -/
structure At (cpu : Cpu) (rom : Array Word) (place : Word) : Prop where
  /-- Its program. -/
  rom : cpu.rom = rom
  /-- It has not halted. -/
  running : cpu.halted = false
  /-- Its program counter. -/
  pc : cpu.pc = place

/-- A state of the processor is made of its memory and registers, its program and its place. -/
theorem At.eq_cpu {cpu : Cpu} {rom : Array Word} {place : Word} (there : At cpu rom place) :
    cpu = Core.cpu ⟨cpu.ram, cpu.a, cpu.d⟩ rom place cpu.steps := by
  obtain ⟨rom', ram, a, d, pc, steps, halted⟩ := cpu
  obtain ⟨rfl, rfl, rfl⟩ := there
  rfl

section Execution

variable {address : String → Word} {rom : Array Word} {pc pc' pc'' : Word}
variable {core core' core'' : Core}

/-- Execution stays where it is. -/
theorem Leads.refl : Leads rom pc core pc core := fun steps => ⟨steps, .refl⟩

/-- Execution goes on where it got. -/
theorem Leads.trans (first : Leads rom pc core pc' core') (second : Leads rom pc' core' pc'' core'') :
    Leads rom pc core pc'' core'' := by
  intro steps
  obtain ⟨middle, reached⟩ := first steps
  obtain ⟨last, further⟩ := second middle
  exact ⟨last, reached.trans further⟩

/-- The processor executes the word at its program counter. -/
theorem step?_cpu {word : Word} (fetched : rom[pc.toNat]? = some word) (steps : Nat) :
    (core.cpu rom pc steps).step? = some ((core.cpu rom pc steps).execute word) :=
  Cpu.step?_eq_some_iff.mpr ⟨rfl, word, fetched, rfl⟩

/-- A word below the compute instructions is loaded. -/
theorem execute_load {word : Word} (small : word.toNat ≤ 32767) (cpu : Cpu) :
    cpu.execute word = { cpu with a := word, pc := cpu.pc + 1, steps := cpu.steps + 1 } := by
  have low : (word &&& 0x8000 == 0) = true := by
    have clear := and_bit_ne_zero word 15 (by decide)
    rw [Word.bit, Nat.testBit_lt_two_pow (by omega)] at clear
    simpa using clear
  rw [Cpu.execute, if_pos low]

/-- A compute instruction without a jump, on the processor. -/
theorem perform_cpu (dest comp : String) (steps : Nat) :
    (core.cpu rom pc steps).perform dest comp "" =
      (core.store dest (core.value comp)).cpu rom (pc + 1) (steps + 1) := rfl

/-- Whether an instruction goes on with the next one in any case. -/
def straight : Instruction → Bool
  | .compute _ _ jump => jump = ""
  | _ => true

/-- An instruction that does not jump leads to the next one. -/
theorem leads_after {instruction : Instruction} (noJump : straight instruction = true)
    (held : Holds address rom pc [instruction]) :
    Leads rom pc core (pc + UInt16.ofNat (size [instruction])) (core.after address instruction) := by
  intro steps
  cases instruction with
  | address value =>
    obtain ⟨word, fetched, encoded⟩ := held.fetch rfl
    obtain ⟨small, loads⟩ := Option.ite_none_right_eq_some.mp encoded
    obtain rfl := Option.some.inj loads
    have fits : (UInt16.ofNat value).toNat ≤ 32767 := by
      rw [UInt16.toNat_ofNat']
      omega
    refine ⟨steps + 1, .single ?_⟩
    rw [step?_cpu fetched, execute_load fits]
    rfl
  | symbol name =>
    obtain ⟨word, fetched, encoded⟩ := held.fetch rfl
    obtain ⟨small, loads⟩ := Option.ite_none_right_eq_some.mp encoded
    obtain rfl := Option.some.inj loads
    refine ⟨steps + 1, .single ?_⟩
    rw [step?_cpu fetched, execute_load small]
    rfl
  | compute dest comp jump =>
    obtain rfl : jump = "" := by simpa [straight] using noJump
    obtain ⟨word, fetched, encoded⟩ := held.fetch rfl
    refine ⟨steps + 1, .single ?_⟩
    rw [step?_cpu fetched, execute_encodeCompute encoded, perform_cpu]
    rfl
  | label name =>
    refine ⟨steps, ?_⟩
    rw [show size [.label name] = 0 from rfl, show UInt16.ofNat 0 = 0 from rfl, UInt16.add_zero]
    exact .refl

/-- Instructions that do not jump are executed one after another. -/
theorem leads_straight {block : List Instruction} (core : Core)
    (noJump : block.all straight = true) (held : Holds address rom pc block) :
    Leads rom pc core (pc + UInt16.ofNat (size block)) (block.foldl (Core.after address) core) := by
  induction block generalizing pc core with
  | nil =>
    rw [size, show UInt16.ofNat 0 = 0 from rfl, UInt16.add_zero]
    exact .refl
  | cons instruction rest ih =>
    rw [← List.singleton_append] at held
    obtain ⟨first, others⟩ := holds_append.mp held
    rw [List.all_cons, Bool.and_eq_true] at noJump
    have second := ih (core.after address instruction) noJump.2 others
    rw [UInt16.add_assoc, ← UInt16.ofNat_add, ← size_append] at second
    exact (leads_after noJump.1 first).trans second

/-- A jump goes to the address register if it is taken, and on to the next instruction
otherwise. -/
theorem leads_jump {comp jump : String} (core : Core) (held : Holds address rom pc [.jump comp jump])
    (awake : jump = "JMP" → core.a + 1 ≠ pc) :
    Leads rom pc core (if jumpTaken jump (core.value comp) then core.a else pc + 1) core := by
  intro steps
  obtain ⟨word, fetched, encoded⟩ := held.fetch rfl
  refine ⟨steps + 1, .single ?_⟩
  rw [step?_cpu fetched, execute_encodeCompute encoded]
  have running : (jumpTaken jump (core.value comp) && decide (jump = "JMP") && core.a + 1 == pc) =
      false := by
    by_cases always : jump = "JMP"
    · simp [awake always]
    · simp [always]
  change some (Cpu.mk rom core.memory core.a core.d
    (if jumpTaken jump (core.value comp) then core.a else pc + 1) (steps + 1)
    (false || (jumpTaken jump (core.value comp) && decide (jump = "JMP") && core.a + 1 == pc))) = _
  rw [running]
  rfl

/-- An unconditional jump to the instruction in front of it halts the processor there. -/
theorem halts_always (core : Core) (held : Holds address rom pc [.jump "0" "JMP"])
    (asleep : core.a + 1 = pc) (steps : Nat) :
    ∃ later, Reaches (core.cpu rom pc steps) later ∧ later.halted = true ∧ later.pc = core.a ∧
      later.ram = core.memory := by
  obtain ⟨word, fetched, encoded⟩ := held.fetch rfl
  refine ⟨_, .single (step?_cpu fetched steps), ?_⟩
  rw [execute_encodeCompute encoded]
  refine ⟨?_, rfl, rfl⟩
  change (core.a + 1 == pc) = true
  rw [asleep, beq_self_eq_true]

/-- An unconditional jump goes to the address register. -/
theorem leads_always (core : Core) (held : Holds address rom pc [.jump "0" "JMP"])
    (awake : core.a + 1 ≠ pc) : Leads rom pc core core.a core :=
  leads_jump core held fun _ => awake

end Execution

end JackToolchain.Machine
