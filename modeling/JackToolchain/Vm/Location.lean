import JackToolchain.Fault
import JackToolchain.Vm.Layout

/-!
# Where segments live

A command addresses memory by a segment and an index; the target machine by cells. Four segments
start at the cell that a pointer holds, and the constant segment is no memory at all. A static
cell is a symbol of its unit and its index, so units do not share static cells; the assembler
places it.
-/
namespace JackToolchain.Vm

open Assembly (Instruction)

/-- The pointers to the segments that move with the running function and its objects. -/
inductive Pointer where
  | lcl | arg | this | that
deriving DecidableEq

/-- The symbol of the cell that holds a pointer. -/
def Pointer.symbol : Pointer → String
  | .lcl => "LCL"
  | .arg => "ARG"
  | .this => "THIS"
  | .that => "THAT"

/-- Where an index of a segment lives. -/
inductive Location where
  /-- So many cells above the cell that a pointer names. -/
  | indirect (base : Pointer) (offset : Nat)
  /-- The cell with this address. -/
  | cell (address : Nat)
  /-- The cell with this symbol. -/
  | named (symbol : String)
  /-- No cell: the number itself. -/
  | constant (value : Nat)
deriving DecidableEq

/-- The static cell of a unit. -/
def staticSymbol (unit : String) (index : Nat) : String := unit ++ "." ++ index.repr

/-- Where an index lives for commands of the given unit, if its segment has that index. -/
def locate? (layout : Layout) (unit : String) (segment : Segment) (index : Nat) :
    Option Location :=
  let bounded (location : Location) : Option Location :=
    if index ≤ layout.maxConstant then some location else none
  match segment with
  | .local => bounded (.indirect .lcl index)
  | .argument => bounded (.indirect .arg index)
  | .this => bounded (.indirect .this index)
  | .that => bounded (.indirect .that index)
  | .constant => bounded (.constant index)
  | .static => some (.named (staticSymbol unit index))
  | .temp => if index < layout.tempSize then some (.cell (layout.tempCell index)) else none
  | .pointer =>
    match index with
    | 0 => some (.named Pointer.this.symbol)
    | 1 => some (.named Pointer.that.symbol)
    | _ => none

/-- Where an index lives, or the fault of the command that has it. -/
def locate (layout : Layout) (unit : String) (segment : Segment) (index : Nat)
    (command : Command) : Except Fault Location :=
  match locate? layout unit segment index with
  | some location => .ok location
  | none => .error (.invalidIndex segment index command)

end JackToolchain.Vm
