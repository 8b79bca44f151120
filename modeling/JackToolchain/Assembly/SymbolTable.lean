import JackToolchain.Machine.Cpu
import Std.Data.HashMap

/-!
# Symbol tables of the assembler

A table gives addresses to symbols. It starts with the names of the platform; labels are inserted
with the address of an instruction, and a symbol that is used without either becomes a variable
at the next free cell.
-/
namespace JackToolchain.Assembly

open Machine (Word)

/-- The names of the platform: the five pointers, the screen, the keyboard and sixteen
registers. -/
def predefined : List (String × Word) :=
  [("SP", 0), ("LCL", 1), ("ARG", 2), ("THIS", 3), ("THAT", 4), ("SCREEN", 16384),
    ("KBD", 24576)] ++
    (List.range 16).map fun register => ("R" ++ register.repr, UInt16.ofNat register)

/-- The cell of the first variable. -/
def firstVariable : Word := 16

/-- Addresses of symbols, and the cell that the next variable gets. -/
structure SymbolTable where
  /-- The address of every known symbol. -/
  addresses : Std.HashMap String Word
  /-- The cell of the next variable. -/
  nextVariable : Word

namespace SymbolTable

/-- The table that knows the names of the platform only. -/
def initial : SymbolTable := ⟨Std.HashMap.ofList predefined, firstVariable⟩

/-- The address of a symbol. -/
def address? (table : SymbolTable) (name : String) : Option Word := table.addresses[name]?

/-- Whether a symbol has an address. -/
def contains (table : SymbolTable) (name : String) : Bool := table.addresses.contains name

/-- Gives a symbol an address in place of any that it has. -/
def insert (table : SymbolTable) (name : String) (address : Word) : SymbolTable :=
  { table with addresses := table.addresses.insert name address }

/-- The address of a symbol, which becomes a variable if it has none. -/
def allocate (table : SymbolTable) (name : String) : Word × SymbolTable :=
  match table.address? name with
  | some address => (address, table)
  | none =>
    (table.nextVariable,
      ⟨table.addresses.insert name table.nextVariable, table.nextVariable + 1⟩)

end SymbolTable

end JackToolchain.Assembly
