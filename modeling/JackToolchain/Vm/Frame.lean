import JackToolchain.Vm.Block

/-!
# Frames

A call pushes a frame of five words above its arguments: the return address and the four segment
pointers of the caller. The argument pointer then names the first argument and the local pointer
the word above the frame, where the function puts its locals. A return puts the result where the
first argument was and restores the pointers from the frame.
-/
namespace JackToolchain.Vm

open Assembly (Instruction)

/-- The pointers that a frame saves, in the order in which a call pushes them. -/
def savedPointers : List Pointer := [.lcl, .arg, .this, .that]

/-- The number of words in a frame: the return address and the saved pointers. -/
def frameSize : Nat := 1 + savedPointers.length

/-- Pushes a zero. -/
def pushZero : List Instruction :=
  [.symbol "SP", .store "A" "M", .store "M" "0", .symbol "SP", .store "M" "M+1"]

/-- The entry of a function: its label, then a zero for each local. -/
def functionBlock (name : String) (locals : Nat) : List Instruction :=
  .label name :: (List.replicate locals pushZero).flatten

/-- A call of a function with so many arguments on the stack; execution comes back to the label
`back` at its end. -/
def callBlock (name : String) (args : Nat) (back : String) : List Instruction :=
  [.symbol back, .store "D" "A"] ++ pushD ++
    savedPointers.flatMap (fun pointer => [.symbol pointer.symbol, .store "D" "M"] ++ pushD) ++
    [.symbol "SP", .store "D" "M", .address (frameSize + args), .store "D" "D-A",
      .symbol "ARG", .store "M" "D",
      .symbol "SP", .store "D" "M", .symbol "LCL", .store "M" "D",
      .symbol name, .jump "0" "JMP", .label back]

/-- Restores a pointer from the word below the cell that the frame register names. -/
def restoreBlock (layout : Layout) (pointer : Pointer) : List Instruction :=
  [.symbol layout.frameRegister, .store "AM" "M-1", .store "D" "M", .symbol pointer.symbol,
    .store "M" "D"]

/-- A return. The return address is read before the result is stored, because a frame without
arguments has it in the cell of the result. -/
def returnBlock (layout : Layout) : List Instruction :=
  [.symbol "LCL", .store "D" "M", .symbol layout.frameRegister, .store "M" "D",
    .address frameSize, .store "A" "D-A", .store "D" "M",
    .symbol layout.returnRegister, .store "M" "D"] ++
    popD ++ [.symbol "ARG", .store "A" "M", .store "M" "D",
      .symbol "ARG", .store "D" "M+1", .symbol "SP", .store "M" "D"] ++
    savedPointers.reverse.flatMap (restoreBlock layout) ++
    [.symbol layout.returnRegister, .store "A" "M", .jump "0" "JMP"]

end JackToolchain.Vm
