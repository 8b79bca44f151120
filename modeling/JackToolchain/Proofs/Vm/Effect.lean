import JackToolchain.Proofs.Machine.Memory
import JackToolchain.Vm.Location

/-!
# Effects of the stack commands

What a command of the stack machine does to the memory, as the command set describes it and
without regard to the instructions that implement it. The pointers are the cells 0 to 4, the temp
segment starts at cell 5, and a frame is the return address below the four saved pointers. The
instructions use the cells 13 and 14 for themselves; `Agree` compares memories on the other ones,
and an effect that reads none of the two takes agreeing memories to agreeing ones.
-/
namespace JackToolchain.Vm

open Machine (Word Memory StackCell)
open Machine.Memory (read_write read_write_of_ne)

/-! ## Words -/

/-- The word of a truth value: all bits set for true. -/
def truth (value : Bool) : Word := if value then -1 else 0

/-- The word that an operation makes of the two words on top of the stack, the lower one first.
An operation on one word takes the upper one. -/
def Operation.result : Operation → Word → Word → Word
  | .add, x, y => x + y
  | .sub, x, y => x - y
  | .neg, _, y => -y
  | .eq, x, y => truth ((x - y).signed = 0)
  | .gt, x, y => truth (0 < (x - y).signed)
  | .lt, x, y => truth ((x - y).signed < 0)
  | .and, x, y => x &&& y
  | .or, x, y => x ||| y
  | .not, _, y => ~~~y

/-! ## Effects -/

/-- The effect of an operation. -/
def Operation.effect (operation : Operation) (memory : Memory) : Memory :=
  if operation.isUnary then
    let top := memory.stackPointer - 1
    memory.write top (operation.result 0 (memory.read top))
  else
    let under := memory.drop.stackPointer - 1
    memory.drop.write under (operation.result (memory.drop.read under) memory.popped)

/-- The cell that holds a pointer. -/
def Pointer.cell : Pointer → Word
  | .lcl => 1
  | .arg => 2
  | .this => 3
  | .that => 4

/-- The cell of an index of a segment, unless the segment is no memory. -/
def segmentCell? (statics : Nat → Word) (memory : Memory) (segment : Segment) (index : Nat) :
    Option Word :=
  match segment with
  | .local => some (memory.read Pointer.lcl.cell + UInt16.ofNat index)
  | .argument => some (memory.read Pointer.arg.cell + UInt16.ofNat index)
  | .this => some (memory.read Pointer.this.cell + UInt16.ofNat index)
  | .that => some (memory.read Pointer.that.cell + UInt16.ofNat index)
  | .static => some (statics index)
  | .pointer => some (Pointer.this.cell + UInt16.ofNat index)
  | .temp => some (5 + UInt16.ofNat index)
  | .constant => none

/-- The effect of a push: the word of the cell, or the index itself if there is no cell. -/
def pushEffect (statics : Nat → Word) (segment : Segment) (index : Nat) (memory : Memory) :
    Memory :=
  match segmentCell? statics memory segment index with
  | some cell => memory.push (memory.read cell)
  | none => memory.push (UInt16.ofNat index)

/-- The effect of a pop into a cell. -/
def popEffect (cell : Word) (memory : Memory) : Memory := memory.drop.write cell memory.popped

/-- The effect of the entry of a function: a zero for each local. -/
def functionEffect : Nat → Memory → Memory
  | 0, memory => memory
  | locals + 1, memory => functionEffect locals (memory.push 0)

/-- The memory with the words of the pointers pushed in order. -/
def pushPointers (memory : Memory) (pointers : List Pointer) : Memory :=
  pointers.foldl (fun memory pointer => memory.push (memory.read pointer.cell)) memory

/-- The effect of a call that comes back to the address `back`: a frame above the arguments, with
the argument pointer at the first argument and the local pointer above the frame. -/
def callEffect (back : Word) (args : Nat) (memory : Memory) : Memory :=
  let framed := pushPointers (memory.push back) [.lcl, .arg, .this, .that]
  let placed := framed.write Pointer.arg.cell (framed.stackPointer - UInt16.ofNat (5 + args))
  placed.write Pointer.lcl.cell placed.stackPointer

/-- Where a return goes: the lowest word of the frame. -/
def returnTarget (memory : Memory) : Word := memory.read (memory.read Pointer.lcl.cell - 5)

/-- The memory with the result of a return in the cell of the first argument and the stack
pointer above it. -/
def deliver (memory : Memory) : Memory :=
  let delivered := memory.drop.write (memory.drop.read Pointer.arg.cell) memory.popped
  delivered.write 0 (delivered.read Pointer.arg.cell + 1)

/-- The memory with the pointers restored from the words below an address, downwards. -/
def restorePointers (memory : Memory) (frame : Word) : List Pointer → Memory
  | [] => memory
  | pointer :: rest =>
    restorePointers (memory.write pointer.cell (memory.read (frame - 1))) (frame - 1) rest

/-- The effect of a return: the result takes the place of the arguments and of everything above
them, and the pointers are those of the caller. -/
def returnEffect (memory : Memory) : Memory :=
  restorePointers (deliver memory) (memory.read Pointer.lcl.cell) [.that, .this, .arg, .lcl]

/-! ## Reading after an effect -/

section Reading

variable {memory : Memory} {address value : Word}

/-- A pointer is neither the stack pointer nor on the stack. -/
theorem pointer_cell_bounds (pointer : Pointer) :
    1 ≤ pointer.cell.toNat ∧ pointer.cell.toNat ≤ 4 := by
  cases pointer <;> decide

/-- Moving the stack pointer changes no other cell. -/
theorem read_drop (other : address.toNat % 32768 ≠ 0) :
    memory.drop.read address = memory.read address :=
  read_write_of_ne (by simpa using other.symm)

/-- A push changes the stack pointer and the cell that it names. -/
theorem read_push (other : address.toNat % 32768 ≠ 0)
    (apart : memory.stackPointer.toNat % 32768 ≠ address.toNat % 32768) :
    (memory.push value).read address = memory.read address := by
  rw [Memory.push, read_write_of_ne (by simpa using other.symm), read_write_of_ne apart]

/-- Delivering a result changes the stack pointer and the cell of the result. -/
theorem read_deliver (other : address.toNat % 32768 ≠ 0)
    (apart : (memory.read Pointer.arg.cell).toNat % 32768 ≠ address.toNat % 32768) :
    (deliver memory).read address = memory.read address := by
  rw [deliver, read_write_of_ne (by simpa using other.symm), read_drop (by decide),
    read_write_of_ne apart, read_drop other]

end Reading

/-! ## Agreement -/

/-- Whether an address names one of the two cells that the instructions use for themselves. -/
def Scratch (address : Word) : Prop := address.toNat % 32768 = 13 ∨ address.toNat % 32768 = 14

/-- Two memories have the same words outside the two cells. -/
def Agree (left right : Memory) : Prop :=
  ∀ address, ¬ Scratch address → left.read address = right.read address

/-- So many cells of the stack below an address are the highest one of them and those below it. -/
theorem stackCells_below {address : Word} {count : Nat}
    (inside : ∀ depth < count + 1, StackCell (address - 1 - UInt16.ofNat depth)) :
    StackCell (address - 1) ∧ ∀ depth < count, StackCell (address - 1 - 1 - UInt16.ofNat depth) := by
  refine ⟨by simpa using inside 0 (by omega), fun depth within => ?_⟩
  have next := inside (depth + 1) (by omega)
  rw [UInt16.ofNat_add, show UInt16.ofNat 1 = 1 from rfl] at next
  rw [show address - 1 - 1 - UInt16.ofNat depth = address - 1 - (UInt16.ofNat depth + 1) by grind]
  exact next

/-- The lowest word of a frame on the stack is a stack cell. -/
theorem stackCell_lowest {frame : Word}
    (inside : ∀ depth < 5, StackCell (frame - 1 - UInt16.ofNat depth)) : StackCell (frame - 5) := by
  have lowest := inside 4 (by decide)
  rwa [show frame - 1 - UInt16.ofNat 4 = frame - 5 by
    rw [show UInt16.ofNat 4 = 4 from rfl]
    grind] at lowest

namespace Agree

variable {left right third : Memory} {address value : Word}

/-- A memory agrees with itself. -/
theorem refl (memory : Memory) : Agree memory memory := fun _ _ => rfl

/-- Equal memories agree. -/
theorem of_eq (same : left = right) : Agree left right := same ▸ refl left

/-- Agreement is transitive. -/
theorem trans (first : Agree left right) (second : Agree right third) : Agree left third :=
  fun address free => (first address free).trans (second address free)

/-- Memories that agree still do with the same word written to both. -/
theorem write (same : Agree left right) (address value : Word) :
    Agree (left.write address value) (right.write address value) := by
  intro place free
  rw [read_write, read_write, same place free]

/-- What is written to the two cells does not count. -/
theorem write_scratch (same : Agree left right) (scratch : Scratch address) (value : Word) :
    Agree left (right.write address value) := by
  intro place free
  rw [read_write_of_ne, same place free]
  unfold Scratch at scratch free
  omega

/-- A stack cell is none of the two. -/
theorem not_scratch_of_stackCell {address : Word} (inside : StackCell address) :
    ¬ Scratch address := by
  obtain ⟨low, high⟩ := inside
  unfold Scratch
  omega

/-- The pointers are none of the two. -/
theorem not_scratch_pointer (pointer : Pointer) : ¬ Scratch pointer.cell := by
  unfold Scratch
  cases pointer <;> decide

/-- Memories that agree have the same stack pointer. -/
theorem stackPointer (same : Agree left right) : left.stackPointer = right.stackPointer :=
  same 0 (by unfold Scratch; decide)

/-- Memories that agree hold the same pointers. -/
theorem pointer (same : Agree left right) (pointer : Pointer) :
    left.read pointer.cell = right.read pointer.cell :=
  same _ (not_scratch_pointer pointer)

/-! ### Effects on memories that agree -/

/-- A push takes agreeing memories to agreeing ones. -/
theorem push (same : Agree left right) (value : Word) :
    Agree (left.push value) (right.push value) := by
  have filled := same.write left.stackPointer value
  simp only [Memory.push, ← same.stackPointer, ← filled.stackPointer]
  exact filled.write 0 _

/-- Moving the stack pointer down takes agreeing memories to agreeing ones. -/
theorem drop (same : Agree left right) : Agree left.drop right.drop := by
  unfold Memory.drop
  rw [← same.stackPointer]
  exact same.write 0 _

/-- The same word is popped if it comes from the stack. -/
theorem popped (same : Agree left right) (inside : StackCell (left.stackPointer - 1)) :
    left.popped = right.popped := by
  unfold Memory.popped
  rw [← same.stackPointer]
  exact same.drop _ (not_scratch_of_stackCell inside)

/-- An operation on words of the stack takes agreeing memories to agreeing ones. -/
theorem operate (same : Agree left right) (operation : Operation)
    (upper : StackCell (left.stackPointer - 1))
    (lower : operation.isUnary = false → StackCell (left.stackPointer - 1 - 1)) :
    Agree (operation.effect left) (operation.effect right) := by
  unfold Operation.effect
  by_cases unary : operation.isUnary = true
  · simp only [unary, ↓reduceIte, ← same.stackPointer,
      ← same _ (not_scratch_of_stackCell upper)]
    exact same.write _ _
  · have under := lower (by simpa using unary)
    simp only [unary, Bool.false_eq_true, ↓reduceIte, Memory.stackPointer_drop,
      ← same.stackPointer, ← same.popped upper, ← same.drop _ (not_scratch_of_stackCell under)]
    exact same.drop.write _ _

/-- An index of a segment has the same cell in agreeing memories. -/
theorem segmentCell? (same : Agree left right) (statics : Nat → Word) (segment : Segment)
    (index : Nat) :
    Vm.segmentCell? statics left segment index = Vm.segmentCell? statics right segment index := by
  cases segment <;> simp only [Vm.segmentCell?, same.pointer]

/-- A push of a cell that is none of the two takes agreeing memories to agreeing ones. -/
theorem pushSegment (same : Agree left right) (statics : Nat → Word) (segment : Segment)
    (index : Nat)
    (free : ∀ cell, Vm.segmentCell? statics left segment index = some cell → ¬ Scratch cell) :
    Agree (pushEffect statics segment index left) (pushEffect statics segment index right) := by
  unfold pushEffect
  rw [← same.segmentCell?]
  cases found : Vm.segmentCell? statics left segment index with
  | none => exact same.push _
  | some cell =>
    simp only [same _ (free cell found)]
    exact same.push _

/-- A pop from the stack takes agreeing memories to agreeing ones. -/
theorem pop (same : Agree left right) (cell : Word)
    (inside : StackCell (left.stackPointer - 1)) :
    Agree (popEffect cell left) (popEffect cell right) := by
  unfold popEffect
  rw [same.popped inside]
  exact same.drop.write _ _

/-- The entry of a function takes agreeing memories to agreeing ones. -/
theorem function (same : Agree left right) (locals : Nat) :
    Agree (functionEffect locals left) (functionEffect locals right) := by
  induction locals generalizing left right with
  | zero => exact same
  | succ locals ih => exact ih (same.push 0)

/-- Pushing pointers takes agreeing memories to agreeing ones. -/
theorem pushPointers (same : Agree left right) (pointers : List Pointer) :
    Agree (Vm.pushPointers left pointers) (Vm.pushPointers right pointers) := by
  induction pointers generalizing left right with
  | nil => exact same
  | cons pointer rest ih =>
    have pushed := same.push (left.read pointer.cell)
    nth_rewrite 2 [same.pointer] at pushed
    exact ih pushed

/-- A call takes agreeing memories to agreeing ones. -/
theorem call (same : Agree left right) (back : Word) (args : Nat) :
    Agree (callEffect back args left) (callEffect back args right) := by
  have framed := (same.push back).pushPointers [.lcl, .arg, .this, .that]
  have placed := framed.write Pointer.arg.cell
    ((Vm.pushPointers (left.push back) [.lcl, .arg, .this, .that]).stackPointer -
      UInt16.ofNat (5 + args))
  unfold callEffect
  simp only [← framed.stackPointer, ← placed.stackPointer]
  exact placed.write _ _

/-- The words of a frame above its lowest one lie below the local pointer. -/
theorem restorePointers (same : Agree left right) (frame : Word) (pointers : List Pointer)
    (inside : ∀ depth < pointers.length, StackCell (frame - 1 - UInt16.ofNat depth)) :
    Agree (Vm.restorePointers left frame pointers) (Vm.restorePointers right frame pointers) := by
  induction pointers generalizing left right frame with
  | nil => exact same
  | cons pointer rest ih =>
    obtain ⟨first, below⟩ := stackCells_below inside
    unfold Vm.restorePointers
    rw [same _ (not_scratch_of_stackCell first)]
    exact ih (same.write _ _) _ below

/-- Delivering a result from the stack takes agreeing memories to agreeing ones. -/
theorem deliver (same : Agree left right) (inside : StackCell (left.stackPointer - 1)) :
    Agree (Vm.deliver left) (Vm.deliver right) := by
  have delivered := same.drop.write (left.drop.read Pointer.arg.cell) left.popped
  unfold Vm.deliver
  simp only [← same.drop.pointer .arg, ← same.popped inside, ← delivered.pointer .arg]
  exact delivered.write _ _

/-- A return from a frame on the stack takes agreeing memories to agreeing ones. -/
theorem «return» (same : Agree left right) (top : StackCell (left.stackPointer - 1))
    (frame : ∀ depth < 5, StackCell (left.read Pointer.lcl.cell - 1 - UInt16.ofNat depth)) :
    Agree (returnEffect left) (returnEffect right) := by
  unfold returnEffect
  rw [← same.pointer .lcl]
  exact (same.deliver top).restorePointers _ _ fun depth within => frame depth (by simp at within; omega)

/-- A return from a frame on the stack goes to the same address. -/
theorem returnTarget (same : Agree left right)
    (lowest : StackCell (left.read Pointer.lcl.cell - 5)) :
    Vm.returnTarget left = Vm.returnTarget right := by
  unfold Vm.returnTarget
  rw [← same.pointer .lcl, same _ (not_scratch_of_stackCell lowest)]

end Agree

end JackToolchain.Vm
