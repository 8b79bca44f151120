import JackToolchain.Text.Numeral

/-!
# Where the stack machine lives

The parts of the memory map that a project may choose, and the routines of the run-time library
that generated code calls. The stack pointer and the four segment pointers are fixed: they are
the cells 0 to 4 of every machine.
-/
namespace JackToolchain.Vm

/-- The memory map of the target machine. -/
structure Layout where
  /-- The stack pointer at the start of a program. -/
  stackBase : Nat := 256
  /-- The first cell of the temp segment. -/
  tempBase : Nat := 5
  /-- The number of temp cells. -/
  tempSize : Nat := 8
  /-- The cell that holds the target of a pop, and the frame pointer during a return. -/
  frameRegister : String := "R13"
  /-- The cell that holds the return address during a return. -/
  returnRegister : String := "R14"
  /-- The largest number that an instruction may load. -/
  maxConstant : Nat := 32767
  /-- The function that the bootstrap calls. -/
  entry : String := "Sys.init"

/-- The run-time routines that generated code calls. `alloc` takes a size and returns an
address, `stringNew` takes a length and returns a string, `stringAppend` takes a string and a
character and returns the string, and the other two take two words and return one. -/
structure RuntimeNames where
  /-- Reserves memory for an object. -/
  alloc : String := "Memory.alloc"
  /-- Makes an empty string. -/
  stringNew : String := "String.new"
  /-- Adds a character to a string. -/
  stringAppend : String := "String.appendChar"
  /-- Multiplies. -/
  multiply : String := "Math.multiply"
  /-- Divides. -/
  divide : String := "Math.divide"

/-- The address of a temp cell, in the 32-bit arithmetic of the memory map. -/
def Layout.tempCell (layout : Layout) (index : Nat) : Nat :=
  (layout.tempBase + index) % Text.bound32

end JackToolchain.Vm
