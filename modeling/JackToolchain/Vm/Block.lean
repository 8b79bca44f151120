import JackToolchain.Vm.Location

/-!
# Instruction blocks of the stack commands

The instructions for one command on the stack. The stack pointer names the free cell above the
stack; a block that takes words from the stack leaves their cells as they are.
-/
namespace JackToolchain.Vm

open Assembly (Instruction)

/-- Pushes `D`. -/
def pushD : List Instruction :=
  [.symbol "SP", .store "A" "M", .store "M" "D", .symbol "SP", .store "M" "M+1"]

/-- Pops into `D`, and leaves `A` at the popped cell. -/
def popD : List Instruction := [.symbol "SP", .store "AM" "M-1", .store "D" "M"]

/-- Pushes the word at a location. -/
def Location.push : Location → List Instruction
  | .constant value => [.address value, .store "D" "A"] ++ pushD
  | .cell address => [.address address, .store "D" "M"] ++ pushD
  | .named symbol => [.symbol symbol, .store "D" "M"] ++ pushD
  | .indirect base offset =>
    [.address offset, .store "D" "A", .symbol base.symbol, .store "A" "D+M", .store "D" "M"] ++
      pushD

/-- Pops into a location, unless it is no cell. The address of a cell that a pointer names is
kept in the frame register while the word is popped. -/
def Location.pop? (layout : Layout) : Location → Option (List Instruction)
  | .constant _ => none
  | .cell address => some (popD ++ [.address address, .store "M" "D"])
  | .named symbol => some (popD ++ [.symbol symbol, .store "M" "D"])
  | .indirect base offset =>
    some ([.address offset, .store "D" "A", .symbol base.symbol, .store "D" "D+M",
        .symbol layout.frameRegister, .store "M" "D"] ++
      popD ++ [.symbol layout.frameRegister, .store "A" "M", .store "M" "D"])

/-- Replaces the word on top of the stack by a computation on it. -/
def unaryBlock (comp : String) : List Instruction :=
  [.symbol "SP", .store "A" "M-1", .store "M" comp]

/-- Replaces the two words on top of the stack by a computation on them: `M` is the lower one and
`D` the upper one. -/
def binaryBlock (comp : String) : List Instruction :=
  popD ++ [.store "A" "A-1", .store "M" comp]

/-- Replaces the two words on top of the stack by a truth value: minus one if the difference of
the lower and the upper one meets the jump condition, and zero otherwise. -/
def comparisonBlock (condition done : String) : List Instruction :=
  popD ++ [.store "A" "A-1", .store "D" "M-D", .store "M" "-1", .symbol done,
    .jump "D" condition, .symbol "SP", .store "A" "M-1", .store "M" "0", .label done]

/-- The instructions of an operation; a comparison jumps to the label `done`. -/
def Operation.block (done : String) : Operation → List Instruction
  | .add => binaryBlock "D+M"
  | .sub => binaryBlock "M-D"
  | .neg => unaryBlock "-M"
  | .eq => comparisonBlock "JEQ" done
  | .gt => comparisonBlock "JGT" done
  | .lt => comparisonBlock "JLT" done
  | .and => binaryBlock "D&M"
  | .or => binaryBlock "D|M"
  | .not => unaryBlock "!M"

/-- Jumps to a label. -/
def gotoBlock (label : String) : List Instruction := [.symbol label, .jump "0" "JMP"]

/-- Pops a word and jumps to a label unless the word is zero. -/
def ifGotoBlock (label : String) : List Instruction :=
  popD ++ [.symbol label, .jump "D" "JNE"]

end JackToolchain.Vm
