import JackToolchain.Machine.Cpu
import Mathlib.Tactic.Common

/-!
# Memory

The cells of the machine under the two operations that an instruction has on them, and the stack
that the cell 0 points into. An address names the same cell as the one 2^15 above it, so facts
about different cells are facts about addresses modulo `ramSize`.
-/
namespace JackToolchain.Machine

/-- The cells of the machine. -/
abbrev Memory := Vector Word ramSize

/-- An address names a cell of the memory. -/
theorem cellOf_lt (address : Word) : (cellOf address).val < ramSize := (cellOf address).isLt

namespace Memory

/-- The word at an address. -/
def read (memory : Memory) (address : Word) : Word :=
  getElem memory (cellOf address).val (cellOf_lt address)

/-- The memory with a word at an address. -/
def write (memory : Memory) (address value : Word) : Memory :=
  memory.set (cellOf address) value (cellOf_lt address)

end Memory

/-- Two addresses name one cell exactly if they agree below the highest bit. -/
theorem cellOf_eq_iff {left right : Word} :
    cellOf left = cellOf right ↔ left.toNat % 32768 = right.toNat % 32768 := by
  rw [Fin.ext_iff]
  rfl

/-- The address of a stack cell lies above the pointers, the temp cells and the registers. -/
def StackCell (address : Word) : Prop := 16 ≤ address.toNat ∧ address.toNat ≤ 32767

instance (address : Word) : Decidable (StackCell address) := by
  unfold StackCell
  infer_instance

namespace Memory

variable {memory : Memory} {address other value : Word}

/-- A read sees the last write to its cell. -/
theorem read_write : (memory.write address value).read other =
    if cellOf address = cellOf other then value else memory.read other := by
  by_cases same : cellOf address = cellOf other
  · simp [read, write, same]
  · have apart : (cellOf address).val ≠ (cellOf other).val := fun equal => same (Fin.ext equal)
    simp [read, write, same, Vector.getElem_set_ne, apart]

/-- A read of the cell that was written. -/
@[simp] theorem read_write_self : (memory.write address value).read address = value := by
  rw [read_write, if_pos rfl]

/-- A read of another cell than the one that was written. -/
theorem read_write_of_ne (apart : address.toNat % 32768 ≠ other.toNat % 32768) :
    (memory.write address value).read other = memory.read other := by
  rw [read_write, if_neg fun same => apart (cellOf_eq_iff.mp same)]

/-- A second write to a cell takes the place of the first. -/
@[simp] theorem write_write {later : Word} :
    (memory.write address value).write address later = memory.write address later := by
  apply Vector.ext
  intro cell inside
  simp [write, Vector.getElem_set]

/-! ## The stack -/

/-- The stack pointer: the address of the free cell above the stack. -/
def stackPointer (memory : Memory) : Word := memory.read 0

/-- The cell 0 holds the stack pointer. -/
theorem read_zero : memory.read 0 = memory.stackPointer := rfl

/-- The memory with a word pushed. -/
def push (memory : Memory) (value : Word) : Memory :=
  let filled := memory.write memory.stackPointer value
  filled.write 0 (filled.stackPointer + 1)

/-- The memory with the stack pointer one cell lower. The cell keeps its word. -/
def drop (memory : Memory) : Memory := memory.write 0 (memory.stackPointer - 1)

/-- The word that the stack pointer leaves above it when it moves one cell down. -/
def popped (memory : Memory) : Word := memory.drop.read (memory.stackPointer - 1)

@[simp] theorem stackPointer_drop : memory.drop.stackPointer = memory.stackPointer - 1 := by
  rw [drop, stackPointer, read_write_self]

@[simp] theorem stackPointer_write_zero : (memory.write 0 value).stackPointer = value := by
  rw [stackPointer, read_write_self]

end Memory

/-- The word below a stack cell is one below it in number. -/
theorem toNat_sub_of_le {word amount : Word} (fits : amount.toNat ≤ word.toNat) :
    (word - amount).toNat = word.toNat - amount.toNat := by
  rw [UInt16.toNat_sub_of_le _ _ (UInt16.le_iff_toNat_le.mpr fits)]

end JackToolchain.Machine
