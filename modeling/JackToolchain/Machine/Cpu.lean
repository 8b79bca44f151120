/-!
# The processor

The machine computes with words of 16 bits; sums wrap. A word that is compared is read as a signed
number.

Registers `A`, `D` and the program counter, a memory of 2^15 words and a program of words. A word
with its top bit clear is loaded into `A`; any other is a compute instruction, which takes its
second operand from `A` or from the memory cell at `A`, stores the result where its destination
bits say and jumps to `A` if its jump bits accept the sign of the result. Memory addresses wrap.

The processor halts when it takes an unconditional jump to the instruction just before the jump,
which is the form of a loop that does nothing: load the own address, jump there.
-/
namespace JackToolchain.Machine

/-- A machine word. -/
abbrev Word := UInt16

/-- The signed number that a word stands for. -/
def Word.signed (word : Word) : Int := word.toBitVec.toInt

/-- The word that stands for a signed number, modulo 2^16. -/
def Word.ofSigned (value : Int) : Word := UInt16.ofBitVec (BitVec.ofInt 16 value)

/-- The number of memory words. -/
def ramSize : Nat := 32768

/-- The state of the processor, its memory and its program. -/
structure Cpu where
  /-- The program. -/
  rom : Array Word
  /-- The memory. -/
  ram : Vector Word ramSize
  /-- The address register. -/
  a : Word
  /-- The data register. -/
  d : Word
  /-- The program counter. -/
  pc : Word
  /-- The number of instructions executed. -/
  steps : Nat
  /-- Whether the processor has entered a loop that does nothing. -/
  halted : Bool

/-- Why a run ended. -/
inductive StopReason where
  | halted | endOfProgram | breakpoint | stepLimit
deriving DecidableEq

/-- The arithmetic unit. Its six bits say, from the highest down: clear the first operand, invert
it, clear the second operand, invert it, add rather than `and`, invert the result. -/
def compute (bits x y : Word) : Word :=
  let bit (place : Word) : Bool := (bits >>> place) &&& 1 == 1
  let x := if bit 5 then 0 else x
  let x := if bit 4 then ~~~x else x
  let y := if bit 3 then 0 else y
  let y := if bit 2 then ~~~y else y
  let out := if bit 1 then x + y else x &&& y
  if bit 0 then ~~~out else out

/-- Whether the three jump bits accept a result: the highest takes negative ones, the middle one
zero and the lowest positive ones. -/
def jumps (bits out : Word) : Bool :=
  let negative := out &&& 0x8000 != 0
  let zero := out == 0
  (bits &&& 0b100 != 0 && negative) || (bits &&& 0b010 != 0 && zero) ||
    (bits &&& 0b001 != 0 && !negative && !zero)

/-- The memory cell that an address names. -/
def cellOf (address : Word) : Fin ramSize :=
  ⟨address.toNat % ramSize, Nat.mod_lt _ (by decide)⟩

namespace Cpu

/-- The processor at the start of a program, with everything zero. -/
def boot (rom : Array Word) : Cpu where
  rom := rom
  ram := Vector.replicate ramSize 0
  a := 0
  d := 0
  pc := 0
  steps := 0
  halted := false

/-- The word at a memory address. -/
def read (cpu : Cpu) (address : Word) : Word := cpu.ram[cellOf address]

/-- Puts a word at a memory address. -/
def write (cpu : Cpu) (address value : Word) : Cpu :=
  { cpu with ram := cpu.ram.set (cellOf address) value }

/-- Whether the program counter is past the last instruction. -/
def atEnd (cpu : Cpu) : Bool := cpu.rom.size ≤ cpu.pc.toNat

/-- Executes one compute instruction. The address of the operand, the stored word and the jump is
the one before the instruction. -/
def executeCompute (cpu : Cpu) (word : Word) : Cpu :=
  let ⟨rom, ram, a, d, pc, steps, halted⟩ := cpu
  let cell := cellOf a
  let y := if (word >>> 12) &&& 1 == 1 then ram[cell] else a
  let out := compute (word >>> 6) d y
  let jump := word &&& 0b111
  let taken := jumps jump out
  { rom := rom
    ram := if (word >>> 3) &&& 0b001 != 0 then ram.set cell out else ram
    a := if (word >>> 3) &&& 0b100 != 0 then out else a
    d := if (word >>> 3) &&& 0b010 != 0 then out else d
    pc := if taken then a else pc + 1
    steps := steps + 1
    halted := halted || (taken && jump == 0b111 && a + 1 == pc) }

/-- Executes one instruction word. -/
def execute (cpu : Cpu) (word : Word) : Cpu :=
  if word &&& 0x8000 == 0 then { cpu with a := word, pc := cpu.pc + 1, steps := cpu.steps + 1 }
  else cpu.executeCompute word

/-- Executes the next instruction, unless the processor has halted or is past the program. -/
def step? (cpu : Cpu) : Option Cpu :=
  if cpu.halted then none
  else if inside : cpu.pc.toNat < cpu.rom.size then some (cpu.execute cpu.rom[cpu.pc.toNat])
  else none

/-- Executes at most `limit` instructions, and stops before the one at `breakpoint`. Only a halt
is still noticed when the limit is used up. -/
def runUntil (breakpoint : Option Word) : Nat → Cpu → StopReason × Cpu
  | 0, cpu => (if cpu.halted then .halted else .stepLimit, cpu)
  | limit + 1, cpu =>
    if cpu.halted then (.halted, cpu)
    else if inside : cpu.pc.toNat < cpu.rom.size then
      if breakpoint = some cpu.pc then (.breakpoint, cpu)
      else runUntil breakpoint limit (cpu.execute cpu.rom[cpu.pc.toNat])
    else (.endOfProgram, cpu)

/-- Executes at most `limit` instructions. -/
def run (limit : Nat) (cpu : Cpu) : StopReason × Cpu := runUntil none limit cpu

end Cpu

end JackToolchain.Machine
