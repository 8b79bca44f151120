import JackToolchain.Proofs.Vm.Block
import JackToolchain.Proofs.Vm.Instructions

/-!
# Calls and returns

What the effects of a call, of the entry of a function and of a return leave in the cells, and
from it that the three undo each other: a caller finds its pointers and its cells as they were,
with the result in place of the arguments. Words of the stack are below 2^15, so a cell of the
stack is told from another by its address.
-/
namespace JackToolchain.Vm

open Assembly (Instruction)
open Machine
open Machine.Memory (read_write_of_ne read_write_self)

/-! ## The cells of a frame -/

section Cells

variable {memory : Memory} {address value : Word}

/-- A push onto a stack cell moves the stack pointer up. -/
theorem stackPointer_push (inside : StackCell memory.stackPointer) :
    (memory.push value).stackPointer = memory.stackPointer + 1 := by
  obtain ⟨low, high⟩ := inside
  rw [Memory.push, Memory.stackPointer_write_zero, Memory.stackPointer,
    read_write_of_ne (by change _ ≠ 0; omega), ← Memory.stackPointer]

/-- A push puts the word where the stack pointer was. -/
theorem read_push_self (inside : StackCell memory.stackPointer) :
    (memory.push value).read memory.stackPointer = value := by
  obtain ⟨low, high⟩ := inside
  rw [Memory.push, read_write_of_ne (by change 0 ≠ _; omega), read_write_self]

/-- The cell so many words above another. -/
theorem toNat_add_of_le {base : Word} {count : Nat} (fits : base.toNat + count ≤ 32768) :
    (base + UInt16.ofNat count).toNat = base.toNat + count := by
  rw [UInt16.toNat_add, UInt16.toNat_ofNat']
  omega

/-- The entry of a function leaves the stack pointer above its locals, which are zero, and changes
no other cell. -/
theorem read_functionEffect (locals : Nat) (low : 16 ≤ memory.stackPointer.toNat)
    (room : memory.stackPointer.toNat + locals ≤ 32767) :
    (functionEffect locals memory).stackPointer = memory.stackPointer + UInt16.ofNat locals ∧
      (∀ place, memory.stackPointer.toNat ≤ place.toNat →
        place.toNat < memory.stackPointer.toNat + locals →
        (functionEffect locals memory).read place = 0) ∧
      ∀ place : Word, 1 ≤ place.toNat → place.toNat ≤ 32767 →
        (place.toNat < memory.stackPointer.toNat ∨
          memory.stackPointer.toNat + locals ≤ place.toNat) →
        (functionEffect locals memory).read place = memory.read place := by
  induction locals generalizing memory with
  | zero =>
    refine ⟨?_, fun place first last => by omega, fun place _ _ _ => rfl⟩
    rw [functionEffect, show UInt16.ofNat 0 = 0 from rfl, UInt16.add_zero]
  | succ locals ih =>
    have inside : StackCell memory.stackPointer := ⟨low, by omega⟩
    have moved := @stackPointer_push memory 0 inside
    have above : (memory.push 0).stackPointer.toNat = memory.stackPointer.toNat + 1 := by
      rw [moved]
      exact toNat_add_of_le (by omega : memory.stackPointer.toNat + 1 ≤ 32768)
    obtain ⟨last, zeros, others⟩ := @ih (memory.push 0) (by omega) (by omega)
    refine ⟨?_, fun place first inside' => ?_, fun place positive small apart => ?_⟩
    · rw [functionEffect, last, moved, UInt16.ofNat_add, UInt16.add_assoc,
        UInt16.add_comm (UInt16.ofNat locals)]
      rfl
    · by_cases here : place = memory.stackPointer
      · subst here
        rw [functionEffect, others _ (by omega) (by omega) (by omega), read_push_self inside]
      · have differ : place.toNat ≠ memory.stackPointer.toNat :=
          fun same => here (UInt16.toNat_inj.mp same)
        exact zeros place (by omega) (by omega)
    · rw [functionEffect, others place positive small (by omega),
        read_push (by omega) (by omega)]

/-- Pushed pointers stand one above the other, and no other cell changes. -/
theorem read_pushPointers (pointers : List Pointer) (low : 16 ≤ memory.stackPointer.toNat)
    (room : memory.stackPointer.toNat + pointers.length ≤ 32767) :
    (pushPointers memory pointers).stackPointer =
        memory.stackPointer + UInt16.ofNat pointers.length ∧
      (∀ (depth : Nat) (pointer : Pointer), pointers[depth]? = some pointer →
        (pushPointers memory pointers).read (memory.stackPointer + UInt16.ofNat depth) =
          memory.read pointer.cell) ∧
      ∀ place : Word, 1 ≤ place.toNat → place.toNat ≤ 32767 →
        (place.toNat < memory.stackPointer.toNat ∨
          memory.stackPointer.toNat + pointers.length ≤ place.toNat) →
        (pushPointers memory pointers).read place = memory.read place := by
  induction pointers generalizing memory with
  | nil =>
    refine ⟨?_, fun depth pointer found => ?_, fun place _ _ _ => rfl⟩
    · rw [pushPointers, List.foldl_nil, List.length_nil, show UInt16.ofNat 0 = 0 from rfl,
        UInt16.add_zero]
    · rw [List.getElem?_nil] at found
      contradiction
  | cons first rest ih =>
    rw [List.length_cons] at room ⊢
    have inside : StackCell memory.stackPointer := ⟨low, by omega⟩
    have moved := @stackPointer_push memory (memory.read first.cell) inside
    have above : (memory.push (memory.read first.cell)).stackPointer.toNat =
        memory.stackPointer.toNat + 1 := by
      rw [moved]
      exact toNat_add_of_le (by omega : memory.stackPointer.toNat + 1 ≤ 32768)
    obtain ⟨last, saved, others⟩ := @ih (memory.push (memory.read first.cell)) (by omega) (by omega)
    change (pushPointers (memory.push (memory.read first.cell)) rest).stackPointer = _ ∧
      (∀ depth pointer, _ →
        (pushPointers (memory.push (memory.read first.cell)) rest).read _ = _) ∧
      ∀ place, _ → _ → _ → (pushPointers (memory.push (memory.read first.cell)) rest).read _ = _
    refine ⟨?_, fun depth pointer found => ?_, fun place positive small apart => ?_⟩
    · rw [last, moved, UInt16.ofNat_add, UInt16.add_assoc,
        UInt16.add_comm (UInt16.ofNat rest.length)]
      rfl
    · cases depth with
      | zero =>
        obtain rfl := Option.some.inj found
        rw [show UInt16.ofNat 0 = 0 from rfl, UInt16.add_zero,
          others _ (by omega) (by omega) (by omega), read_push_self inside]
      | succ depth =>
        have bounds := pointer_cell_bounds pointer
        rw [List.getElem?_cons_succ] at found
        rw [UInt16.ofNat_add, UInt16.add_comm (UInt16.ofNat depth), ← UInt16.add_assoc,
          show UInt16.ofNat 1 = 1 from rfl, ← moved, saved depth pointer found,
          read_push (by omega) (by omega)]
    · rw [others place positive small (by omega), read_push (by omega) (by omega)]

/-- A frame stands above the arguments, as a call and the entry of the function leave it: the return
address is lowest and the pointers of the caller are above it, then come the locals. -/
structure HasFrame (before : Memory) (args : Nat) (back : Word) (locals : Nat) (after : Memory) :
    Prop where
  /-- The stack pointer is above the locals. -/
  stackPointer : after.stackPointer = before.stackPointer + 5 + UInt16.ofNat locals
  /-- The local pointer is above the frame. -/
  localPointer : after.read Pointer.lcl.cell = before.stackPointer + 5
  /-- The argument pointer is at the first argument. -/
  argumentPointer : after.read Pointer.arg.cell = before.stackPointer - UInt16.ofNat args
  /-- The return address. -/
  back : after.read before.stackPointer = back
  /-- The pointers of the caller. -/
  saved : ∀ (depth : Nat) (pointer : Pointer), savedPointers[depth]? = some pointer →
    after.read (before.stackPointer + UInt16.ofNat (depth + 1)) = before.read pointer.cell
  /-- The locals are zero. -/
  zeros : ∀ index < locals, after.read (before.stackPointer + 5 + UInt16.ofNat index) = 0
  /-- The other cells. -/
  others : ∀ place : Word, 3 ≤ place.toNat → place.toNat ≤ 32767 →
    (place.toNat < before.stackPointer.toNat ∨
      before.stackPointer.toNat + 4 + locals < place.toNat) →
    after.read place = before.read place

/-- The words that a call pushes. -/
theorem read_pushed (back : Word) (low : 16 ≤ memory.stackPointer.toNat)
    (room : memory.stackPointer.toNat + 5 ≤ 32767) :
    let pushed := pushPointers (memory.push back) savedPointers
    pushed.stackPointer = memory.stackPointer + 5 ∧ pushed.read memory.stackPointer = back ∧
      (∀ (depth : Nat) (pointer : Pointer), savedPointers[depth]? = some pointer →
        pushed.read (memory.stackPointer + UInt16.ofNat (depth + 1)) = memory.read pointer.cell) ∧
      ∀ place : Word, 1 ≤ place.toNat → place.toNat ≤ 32767 →
        (place.toNat < memory.stackPointer.toNat ∨
          memory.stackPointer.toNat + 4 < place.toNat) →
        pushed.read place = memory.read place := by
  intro pushed
  have inside : StackCell memory.stackPointer := ⟨low, by omega⟩
  have moved := @stackPointer_push memory back inside
  have above : (memory.push back).stackPointer.toNat = memory.stackPointer.toNat + 1 := by
    rw [moved]
    exact toNat_add_of_le (by omega : memory.stackPointer.toNat + 1 ≤ 32768)
  have count : savedPointers.length = 4 := rfl
  obtain ⟨last, saved, others⟩ :=
    @read_pushPointers (memory.push back) savedPointers (by omega) (by omega)
  refine ⟨?_, ?_, fun depth pointer found => ?_, fun place high small apart => ?_⟩
  · rw [last, moved, count, UInt16.add_assoc]
    rfl
  · rw [others _ (by omega) (by omega) (by omega), read_push_self inside]
  · have bounds := pointer_cell_bounds pointer
    have shifted : memory.stackPointer + UInt16.ofNat (depth + 1) =
        (memory.push back).stackPointer + UInt16.ofNat depth := by
      rw [moved, UInt16.ofNat_add, UInt16.add_assoc, UInt16.add_comm 1]
      rfl
    rw [shifted, saved depth pointer found, read_push (by omega) (by omega)]
  · rw [others _ (by omega) small (by omega), read_push (by omega) (by omega)]

/-- A call pushes its words and places two pointers below the stack. -/
theorem callEffect_eq (back : Word) (args : Nat) (low : 16 ≤ memory.stackPointer.toNat)
    (room : memory.stackPointer.toNat + 5 ≤ 32767) :
    callEffect back args memory =
      ((pushPointers (memory.push back) savedPointers).write Pointer.arg.cell
        (memory.stackPointer + 5 - UInt16.ofNat (5 + args))).write Pointer.lcl.cell
          (memory.stackPointer + 5) := by
  have top := (@read_pushed memory back low room).1
  have placed (value : Word) : ((pushPointers (memory.push back) savedPointers).write
      Pointer.arg.cell value).stackPointer = memory.stackPointer + 5 := by
    rw [Memory.stackPointer, read_write_of_ne (by decide), ← Memory.stackPointer, top]
  change (Memory.write _ Pointer.lcl.cell (((pushPointers (memory.push back) savedPointers).write
    Pointer.arg.cell ((pushPointers (memory.push back) savedPointers).stackPointer -
      UInt16.ofNat (5 + args))).stackPointer)) = _
  rw [placed, ← top]
  rfl

/-- A call leaves a frame without locals. -/
theorem hasFrame_callEffect (back : Word) (args : Nat) (low : 16 ≤ memory.stackPointer.toNat)
    (room : memory.stackPointer.toNat + 5 ≤ 32767) :
    HasFrame memory args back 0 (callEffect back args memory) := by
  have called := @callEffect_eq memory back args low room
  obtain ⟨top, lowest, saved, others⟩ := @read_pushed memory back low room
  have untouched (place : Word) (high : 3 ≤ place.toNat ∨ place.toNat = 0)
      (small : place.toNat ≤ 32767) :
      (callEffect back args memory).read place =
        (pushPointers (memory.push back) savedPointers).read place := by
    rw [called, read_write_of_ne (by change 1 ≠ _; omega), read_write_of_ne (by change 2 ≠ _; omega)]
  constructor
  case stackPointer =>
    rw [Memory.stackPointer, untouched 0 (.inr rfl) (by decide), ← Memory.stackPointer, top]
    exact (UInt16.add_zero _).symm
  case localPointer => rw [called, read_write_self]
  case argumentPointer =>
    rw [called, read_write_of_ne (by decide), read_write_self, UInt16.ofNat_add,
      show UInt16.ofNat 5 = 5 from rfl]
    grind
  case back => rw [untouched _ (.inl (by omega)) (by omega), lowest]
  case saved =>
    intro depth pointer found
    have small : depth < 4 := (List.getElem?_eq_some_iff.mp found).1
    have cell := toNat_add_of_le (by omega : memory.stackPointer.toNat + (depth + 1) ≤ 32768)
    rw [untouched _ (.inl (by omega)) (by omega), saved depth pointer found]
  case zeros => exact fun index inside => absurd inside (Nat.not_lt_zero index)
  case others =>
    intro place high small apart
    rw [untouched _ (.inl high) small, others place (by omega) small apart]

/-- A frame holds every pointer. -/
theorem exists_savedPointers (pointer : Pointer) :
    ∃ depth < 4, savedPointers[depth]? = some pointer := by
  cases pointer with
  | lcl => exact ⟨0, by decide, rfl⟩
  | arg => exact ⟨1, by decide, rfl⟩
  | this => exact ⟨2, by decide, rfl⟩
  | that => exact ⟨3, by decide, rfl⟩

/-- A return restores the pointers from the words below the frame pointer. -/
theorem returnEffect_eq {base : Word} (low : 16 ≤ base.toNat) (room : base.toNat + 5 ≤ 32767)
    (frame : memory.read Pointer.lcl.cell = base + 5) :
    returnEffect memory = ((((deliver memory).write Pointer.that.cell ((deliver memory).read
      (base + UInt16.ofNat 4))).write Pointer.this.cell ((deliver memory).read
      (base + UInt16.ofNat 3))).write Pointer.arg.cell ((deliver memory).read
      (base + UInt16.ofNat 2))).write Pointer.lcl.cell ((deliver memory).read
      (base + UInt16.ofNat 1)) := by
  have apart (pointer : Pointer) (depth : Nat) (small : depth ≤ 4) :
      pointer.cell.toNat % 32768 ≠ (base + UInt16.ofNat depth).toNat % 32768 := by
    have bounds := pointer_cell_bounds pointer
    rw [toNat_add_of_le (by omega)]
    omega
  have down (depth : Nat) :
      base + UInt16.ofNat (depth + 1) - 1 = base + UInt16.ofNat depth := by
    rw [UInt16.ofNat_add, show UInt16.ofNat 1 = 1 from rfl]
    grind
  rw [returnEffect, frame, show base + 5 = base + UInt16.ofNat (4 + 1) from rfl]
  simp only [restorePointers, down 4, down 3, down 2, down 1, read_write_of_ne (apart _ 3 (by decide)),
    read_write_of_ne (apart _ 2 (by decide)), read_write_of_ne (apart _ 1 (by decide))]

/-- A return from a frame on the stack restores the pointers from it, leaves the word on top in the
cell of the first argument and the stack pointer above that, and changes no other cell. -/
theorem read_returnEffect {base : Word} (low : 16 ≤ base.toNat) (room : base.toNat + 5 ≤ 32767)
    (frame : memory.read Pointer.lcl.cell = base + 5)
    (first : StackCell (memory.read Pointer.arg.cell))
    (under : (memory.read Pointer.arg.cell).toNat ≤ base.toNat) :
    (returnEffect memory).stackPointer = memory.read Pointer.arg.cell + 1 ∧
      (returnEffect memory).read (memory.read Pointer.arg.cell) = memory.popped ∧
      (∀ (depth : Nat) (pointer : Pointer), savedPointers[depth]? = some pointer →
        (returnEffect memory).read pointer.cell =
          memory.read (base + UInt16.ofNat (depth + 1))) ∧
      ∀ place : Word, 5 ≤ place.toNat → place.toNat ≤ 32767 →
        place ≠ memory.read Pointer.arg.cell →
        (returnEffect memory).read place = memory.read place := by
  obtain ⟨lowest, highest⟩ := first
  have restored := returnEffect_eq low room frame
  have result : (deliver memory).read (memory.read Pointer.arg.cell) = memory.popped := by
    rw [deliver, read_write_of_ne (by change 0 ≠ _; omega), read_drop (by decide), read_write_self]
  have kept (depth : Nat) (inside : 1 ≤ depth) (small : depth ≤ 4) :
      (deliver memory).read (base + UInt16.ofNat depth) =
        memory.read (base + UInt16.ofNat depth) := by
    have cell := toNat_add_of_le (by omega : base.toNat + depth ≤ 32768)
    exact read_deliver (by omega) (by omega)
  have untouched (place : Word) (high : 5 ≤ place.toNat ∨ place.toNat = 0)
      (small : place.toNat ≤ 32767) :
      (returnEffect memory).read place = (deliver memory).read place := by
    have apart (pointer : Pointer) : pointer.cell.toNat % 32768 ≠ place.toNat % 32768 := by
      have bounds := pointer_cell_bounds pointer
      omega
    rw [restored, read_write_of_ne (apart _), read_write_of_ne (apart _),
      read_write_of_ne (apart _), read_write_of_ne (apart _)]
  refine ⟨?_, ?_, fun depth pointer found => ?_, fun place high small other => ?_⟩
  · have pointer : (memory.drop.read Pointer.arg.cell).toNat % 32768 ≠
        Pointer.arg.cell.toNat % 32768 := by
      rw [read_drop (by decide)]
      change _ ≠ 2
      omega
    rw [Memory.stackPointer, untouched 0 (.inr rfl) (by decide), deliver, read_write_self,
      read_write_of_ne pointer, read_drop (by decide)]
  · rw [untouched _ (.inl (by omega)) (by omega), result]
  · have small : depth < 4 := (List.getElem?_eq_some_iff.mp found).1
    rw [← kept (depth + 1) (by omega) (by omega), restored]
    obtain rfl | rfl | rfl | rfl : depth = 0 ∨ depth = 1 ∨ depth = 2 ∨ depth = 3 := by omega
    · obtain rfl := Option.some.inj found
      rw [read_write_self]
    · obtain rfl := Option.some.inj found
      rw [read_write_of_ne (by decide), read_write_self]
    · obtain rfl := Option.some.inj found
      rw [read_write_of_ne (by decide), read_write_of_ne (by decide), read_write_self]
    · obtain rfl := Option.some.inj found
      rw [read_write_of_ne (by decide), read_write_of_ne (by decide),
        read_write_of_ne (by decide), read_write_self]
  · rw [untouched place (.inl high) small]
    have apart : (memory.read Pointer.arg.cell).toNat ≠ place.toNat :=
      fun same => other (UInt16.toNat_inj.mp same.symm)
    exact read_deliver (by omega) (by omega)

end Cells

/-! ## Calls that come back -/

/-- What the code of a function leaves for its return: the local and the argument pointer and the
frame at `base` as they were when it started, and a result on its stack. -/
structure KeepsFrame (base : Word) (entered left : Cpu) : Prop where
  /-- The local pointer. -/
  localPointer : left.read Pointer.lcl.cell = entered.read Pointer.lcl.cell
  /-- The argument pointer. -/
  argumentPointer : left.read Pointer.arg.cell = entered.read Pointer.arg.cell
  /-- The words of the frame. -/
  frame : ∀ depth < 5, left.read (base + UInt16.ofNat depth) =
    entered.read (base + UInt16.ofNat depth)
  /-- There is a word above the frame. -/
  result : base.toNat + 6 ≤ (left.read 0).toNat
  /-- The stack is inside the memory. -/
  room : (left.read 0).toNat ≤ 32767

/-- The state in which the code of a function starts: the stack pointer is above the frame and the
locals, and the locals are zero. -/
structure Entered (cpu : Cpu) (locals : Nat) (entered : Cpu) : Prop where
  /-- The stack pointer. -/
  stackPointer : entered.read 0 = cpu.read 0 + 5 + UInt16.ofNat locals
  /-- The locals. -/
  zero : ∀ index < locals,
    entered.read (entered.read Pointer.lcl.cell + UInt16.ofNat index) = 0

/-- The state in which a caller goes on: the result has taken the place of the arguments, the
pointers are as they were before the call, and so is every cell that the code of the function left
alone, but for the two registers of a return and the cells of the frame and the locals. -/
structure Returned (cpu : Cpu) (args locals : Nat) (entered left final : Cpu) : Prop where
  /-- The stack pointer. -/
  stackPointer : final.read 0 = cpu.read 0 - UInt16.ofNat args + 1
  /-- The result is the word that was on top of the stack of the function. -/
  result : final.read (cpu.read 0 - UInt16.ofNat args) = left.read (left.read 0 - 1)
  /-- The pointers. -/
  pointer : ∀ pointer : Pointer, final.read pointer.cell = cpu.read pointer.cell
  /-- The other cells. -/
  other : ∀ place : Word, 5 ≤ place.toNat → place.toNat ≤ 32767 → place ≠ 13 → place ≠ 14 →
    place ≠ cpu.read 0 - UInt16.ofNat args →
    (place.toNat < (cpu.read 0).toNat ∨ (cpu.read 0).toNat + 4 + locals < place.toNat) →
    left.read place = entered.read place → final.read place = cpu.read place

section RoundTrip

variable {memory : Memory} {args locals : Nat} {back : Word}

/-- A call and the entry of the function leave a frame. -/
private theorem hasFrame_entry (low : 16 ≤ memory.stackPointer.toNat)
    (room : memory.stackPointer.toNat + 5 + locals + 1 ≤ 32767) :
    HasFrame memory args back locals (functionEffect locals (callEffect back args memory)) := by
  have frame := hasFrame_callEffect back args low
    (by omega : memory.stackPointer.toNat + 5 ≤ 32767)
  have top : (callEffect back args memory).stackPointer = memory.stackPointer + 5 :=
    frame.stackPointer.trans (UInt16.add_zero _)
  have raised : (memory.stackPointer + 5).toNat = memory.stackPointer.toNat + 5 :=
    toNat_add_of_le (by omega : memory.stackPointer.toNat + 5 ≤ 32768)
  obtain ⟨last, zeros, rest⟩ :=
    @read_functionEffect (callEffect back args memory) locals (by rw [top]; omega)
      (by rw [top]; omega)
  rw [top] at last zeros rest
  constructor
  case stackPointer => exact last
  case localPointer =>
    rw [← frame.localPointer]
    exact rest _ (by decide) (by decide) (.inl (by change 1 < _; omega))
  case argumentPointer =>
    rw [← frame.argumentPointer]
    exact rest _ (by decide) (by decide) (.inl (by change 2 < _; omega))
  case back =>
    have same := rest memory.stackPointer (by omega) (by omega) (.inl (by omega))
    exact same.trans frame.back
  case saved =>
    intro depth pointer found
    have small : depth < 4 := (List.getElem?_eq_some_iff.mp found).1
    have cell := toNat_add_of_le (by omega : memory.stackPointer.toNat + (depth + 1) ≤ 32768)
    rw [← frame.saved depth pointer found]
    exact rest _ (by omega) (by omega) (.inl (by omega))
  case zeros =>
    intro index inside
    have cell := toNat_add_of_le (by omega : (memory.stackPointer + 5).toNat + index ≤ 32768)
    exact zeros _ (by omega) (by omega)
  case others =>
    intro place high small apart
    rw [rest place (by omega) small (by omega), frame.others place high small (by omega)]

variable {cpu entered left final : Cpu}

/-- The first argument is as many cells below the frame as there are arguments. -/
private theorem toNat_sub_args {base : Word} (low : args ≤ base.toNat) :
    (base - UInt16.ofNat args).toNat = base.toNat - args := by
  have small := base.toNat_lt
  rw [toNat_sub_of_le (by rw [UInt16.toNat_ofNat']; omega), UInt16.toNat_ofNat']
  omega

/-- The code of a function starts as the effects of the call and of its entry say. -/
private theorem entered_of_agree (low : 16 ≤ (cpu.read 0).toNat)
    (room : (cpu.read 0).toNat + 5 + locals + 1 ≤ 32767)
    (same : Agree (functionEffect locals (callEffect back args cpu.ram)) entered.ram) :
    Entered cpu locals entered := by
  have entry := @hasFrame_entry cpu.ram args locals back low room
  have pointer : entered.read Pointer.lcl.cell = cpu.read 0 + 5 :=
    (same.pointer .lcl).symm.trans entry.localPointer
  have raised : (cpu.read 0 + 5).toNat = (cpu.read 0).toNat + 5 :=
    toNat_add_of_le (by omega : (cpu.read 0).toNat + 5 ≤ 32768)
  refine ⟨same.stackPointer.symm.trans entry.stackPointer, fun index inside => ?_⟩
  have cell := toNat_add_of_le (by omega : (cpu.read 0 + 5).toNat + index ≤ 32768)
  have free : ¬ Scratch (cpu.read 0 + 5 + UInt16.ofNat index) :=
    Agree.not_scratch_of_stackCell ⟨by omega, by omega⟩
  rw [pointer]
  exact (same _ free).symm.trans (entry.zeros index inside)

/-- The code of a function leaves the two pointers as the call placed them. -/
private theorem pointers_of_keeps
    (entry : HasFrame cpu.ram args back locals (functionEffect locals (callEffect back args cpu.ram)))
    (start : Agree (functionEffect locals (callEffect back args cpu.ram)) entered.ram)
    (keeps : KeepsFrame (cpu.read 0) entered left) :
    left.read Pointer.lcl.cell = cpu.read 0 + 5 ∧
      left.read Pointer.arg.cell = cpu.read 0 - UInt16.ofNat args := by
  constructor
  · exact keeps.localPointer.trans ((start.pointer .lcl).symm.trans entry.localPointer)
  · exact keeps.argumentPointer.trans ((start.pointer .arg).symm.trans entry.argumentPointer)

/-- The code of a function leaves a return everything that it needs. -/
private theorem returns_of_agree (low : args + 16 ≤ (cpu.read 0).toNat)
    (room : (cpu.read 0).toNat + 5 + locals + 1 ≤ 32767)
    (start : Agree (functionEffect locals (callEffect back args cpu.ram)) entered.ram)
    (keeps : KeepsFrame (cpu.read 0) entered left) :
    returnTarget left.ram = back ∧ StackCell (left.read 0 - 1) ∧
      (∀ depth < 5, StackCell (left.read Pointer.lcl.cell - 1 - UInt16.ofNat depth)) ∧
      StackCell (left.read Pointer.arg.cell) := by
  have entry := @hasFrame_entry cpu.ram args locals back (by
    change 16 ≤ (cpu.read 0).toNat
    omega) room
  have result := keeps.result
  have height := keeps.room
  obtain ⟨frame, first⟩ := pointers_of_keeps entry start keeps
  have below := @toNat_sub_args args (cpu.read 0) (by omega)
  have stacked : ¬ Scratch (cpu.read 0) := Agree.not_scratch_of_stackCell ⟨by omega, by omega⟩
  have bottom := keeps.frame 0 (by decide)
  rw [show UInt16.ofNat 0 = 0 from rfl, UInt16.add_zero] at bottom
  refine ⟨?_, ?_, fun depth inside => ?_, ?_⟩
  · change left.read (left.read Pointer.lcl.cell - 5) = back
    rw [frame, UInt16.add_sub_cancel]
    exact bottom.trans ((start _ stacked).symm.trans entry.back)
  · have place : (left.read 0 - 1).toNat = (left.read 0).toNat - 1 :=
      toNat_sub_of_le (by change 1 ≤ _; omega)
    exact ⟨by omega, by omega⟩
  · have place : left.read Pointer.lcl.cell - 1 - UInt16.ofNat depth =
        cpu.read 0 + UInt16.ofNat (4 - depth) := by
      rw [frame, UInt16.ofNat_sub (by omega), show UInt16.ofNat 4 = 4 from rfl]
      grind
    have cell := toNat_add_of_le (by omega : (cpu.read 0).toNat + (4 - depth) ≤ 32768)
    rw [place]
    exact ⟨by omega, by omega⟩
  · rw [first]
    exact ⟨by omega, by omega⟩

/-- The caller goes on as the effect of the return says. -/
private theorem returned_of_agree (low : args + 16 ≤ (cpu.read 0).toNat)
    (room : (cpu.read 0).toNat + 5 + locals + 1 ≤ 32767)
    (start : Agree (functionEffect locals (callEffect back args cpu.ram)) entered.ram)
    (keeps : KeepsFrame (cpu.read 0) entered left)
    (last : Agree (returnEffect left.ram) final.ram) : Returned cpu args locals entered left final := by
  have entry := @hasFrame_entry cpu.ram args locals back (by
    change 16 ≤ (cpu.read 0).toNat
    omega) room
  have result := keeps.result
  have height := keeps.room
  obtain ⟨frame, first⟩ := pointers_of_keeps entry start keeps
  have below := @toNat_sub_args args (cpu.read 0) (by omega)
  obtain ⟨top, delivered, restored, kept⟩ := @read_returnEffect left.ram (cpu.read 0)
    (by omega) (by omega) frame
    (by change StackCell (left.read Pointer.arg.cell); rw [first]; exact ⟨by omega, by omega⟩)
    (by change (left.read Pointer.arg.cell).toNat ≤ _; rw [first]; omega)
  change Memory.read left.ram Pointer.arg.cell = _ at first
  rw [first] at top delivered kept
  constructor
  case stackPointer => exact last.stackPointer.symm.trans top
  case result =>
    have place : (Memory.stackPointer left.ram - 1).toNat = (left.read 0).toNat - 1 :=
      toNat_sub_of_le (by change 1 ≤ (left.read 0).toNat; omega)
    have popped : Memory.popped left.ram = left.read (left.read 0 - 1) := read_drop (by omega)
    have free : StackCell (cpu.read 0 - UInt16.ofNat args) := ⟨by omega, by omega⟩
    exact (last _ (Agree.not_scratch_of_stackCell free)).symm.trans (delivered.trans popped)
  case pointer =>
    intro pointer
    obtain ⟨depth, inside, found⟩ := exists_savedPointers pointer
    have cell := toNat_add_of_le (by omega : (cpu.read 0).toNat + (depth + 1) ≤ 32768)
    have stacked : ¬ Scratch (cpu.read 0 + UInt16.ofNat (depth + 1)) :=
      Agree.not_scratch_of_stackCell ⟨by omega, by omega⟩
    calc final.read pointer.cell
        = left.read (cpu.read 0 + UInt16.ofNat (depth + 1)) :=
          (last.pointer pointer).symm.trans (restored depth pointer found)
      _ = entered.read (cpu.read 0 + UInt16.ofNat (depth + 1)) := keeps.frame _ (by omega)
      _ = cpu.read pointer.cell := (start _ stacked).symm.trans (entry.saved depth pointer found)
  case other =>
    intro place high small notFrame notReturn notResult apart same
    have scratch : ¬ Scratch place := by
      intro register
      rcases register with thirteen | fourteen
      · exact notFrame (UInt16.toNat_inj.mp (by change _ = 13; omega))
      · exact notReturn (UInt16.toNat_inj.mp (by change _ = 14; omega))
    calc final.read place
        = left.read place := (last place scratch).symm.trans (kept place high small notResult)
      _ = entered.read place := same
      _ = cpu.read place :=
          (start place scratch).symm.trans (entry.others place (by omega) small apart)

end RoundTrip

/-- A call, the entry of its function, any code that keeps the frame, and a return come back to the
caller with the result in place of the arguments and everything else of the caller restored. -/
theorem call_return_round_trip {name unit unit' unit'' : String}
    {numbering numbering' numbering'' : Numbering} {args locals : Nat} (argsFit : args ≤ 32762)
    (localsFit : locals ≤ 32767) :
    ∃ call entry leave,
      (Command.call name args).instructions {} unit numbering = .ok call ∧
      (Command.function name locals).instructions {} unit' numbering' = .ok entry ∧
      Command.return.instructions {} unit'' numbering'' = .ok leave ∧
      ∀ {address rom code callPlace entryPlace leavePlace}, Loaded address rom code →
        StandsAt code call callPlace → StandsAt code entry entryPlace →
        StandsAt code leave leavePlace →
      ∀ cpu, At cpu rom callPlace → args + 16 ≤ (cpu.read 0).toNat →
        (cpu.read 0).toNat + 5 + locals + 1 ≤ 32767 →
      ∃ entered, Reaches cpu entered ∧ At entered rom (entryPlace + UInt16.ofNat (size entry)) ∧
        Entered cpu locals entered ∧
      ∀ left, Reaches entered left → At left rom leavePlace →
        KeepsFrame (cpu.read 0) entered left →
      ∃ final, Reaches left final ∧ At final rom (callPlace + UInt16.ofNat (size call)) ∧
        address numbering.returnSymbol = callPlace + UInt16.ofNat (size call) ∧
        Returned cpu args locals entered left final := by
  refine ⟨_, _, _, (Lowers.call name argsFit).instructions,
    (Lowers.function name localsFit).instructions, Lowers.return.instructions, ?_⟩
  intro address rom code callPlace entryPlace leavePlace loaded callStands entryStands leaveStands
    cpu there low room
  have named : address name = entryPlace := (loaded.holds entryStands).1
  have label : .label name ∈ code := entryStands.mem List.mem_cons_self
  have backLabel : .label numbering.returnSymbol ∈ code :=
    callStands.mem (by simp [callBlock])
  have back := address_back (loaded.holds callStands)
  have calls : Runs _ _ cpu.ram _ _ := runs_call loaded label callStands
  rw [named] at calls
  obtain ⟨started, reachesStart, atStart, called⟩ := calls.reaches there
  obtain ⟨entered, reachesBody, atBody, zeroed⟩ :=
    (runs_function loaded.platform (loaded.holds entryStands)).reaches atStart
  have entry := (called.function locals).trans zeroed
  refine ⟨entered, reachesStart.trans reachesBody, atBody,
    entered_of_agree (by omega) room entry, fun left reachesLeft atLeft keeps => ?_⟩
  obtain ⟨target, top, frame, first⟩ := returns_of_agree low room entry keeps
  obtain ⟨final, reachesFinal, atFinal, returned⟩ :=
    (runs_return loaded backLabel target top frame first leaveStands).reaches atLeft
  rw [back] at atFinal
  exact ⟨final, reachesFinal, atFinal, back, returned_of_agree low room entry keeps returned⟩

/-- The addresses of a program that calls a function with one argument and one local, which returns
at once, and then halts. -/
def roundTripAddress (name : String) : Word :=
  ((("f", 49) :: ("Main$ret$0", 47) :: ("Main$stop", 47) :: Assembly.predefined).lookup name).getD 0

/-- The instructions of the program. -/
def roundTripCode : List Instruction :=
  callBlock "f" 1 "Main$ret$0" ++ ([.label "Main$stop"] ++ gotoBlock "Main$stop") ++
    functionBlock "f" 1 ++ returnBlock {}

/-- The words of the program. -/
def roundTripRom : Array Word := (roundTripCode.filterMap (wordOf? roundTripAddress)).toArray

/-- The processor at the call, with the argument on the stack. -/
def roundTripCaller : Cpu :=
  Core.cpu ⟨Memory.write (Vector.replicate ramSize 0) 0 257, 0, 0⟩ roundTripRom 0 0

/-- The function of the program returns its local to the caller. -/
theorem call_return_round_trip_sample :
    ∃ entered final, Reaches roundTripCaller entered ∧ Reaches entered final ∧
      At final roundTripRom 47 ∧ Returned roundTripCaller 1 1 entered entered final := by
  obtain ⟨call, entry, leave, isCall, isEntry, isLeave, roundTrip⟩ :=
    @call_return_round_trip "f" "Main" "Main" "Main" ⟨"Main", 0, 0⟩ ⟨"Main", 0, 0⟩ ⟨"f", 0, 1⟩ 1 1
      (by decide) (by decide)
  obtain rfl := Except.ok.inj isCall
  obtain rfl := Except.ok.inj isEntry
  obtain rfl := Except.ok.inj isLeave
  have loaded : Loaded roundTripAddress roundTripRom roundTripCode :=
    ⟨by unfold Platform; decide +kernel, by decide +kernel, by decide⟩
  have stack : roundTripCaller.read 0 = 257 := read_write_self
  obtain ⟨entered, reached, there, started, returns⟩ := roundTrip loaded
    ⟨[], _, rfl, rfl⟩ ⟨_, returnBlock {}, rfl, rfl⟩ ⟨_, [], (List.append_nil _).symm, rfl⟩
    roundTripCaller ⟨rfl, rfl, rfl⟩ (by rw [stack]; decide) (by rw [stack]; decide)
  have top : (entered.read 0).toNat = 263 := by
    rw [started.stackPointer, stack]
    rfl
  obtain ⟨final, back, last, -, returned⟩ := returns entered .refl there
    ⟨rfl, rfl, fun _ _ => rfl, by rw [stack, top]; decide, by rw [top]; decide⟩
  exact ⟨entered, final, reached, back, last, returned⟩

end JackToolchain.Vm
