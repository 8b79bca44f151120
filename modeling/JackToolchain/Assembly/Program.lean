import JackToolchain.Assembly.Encoding
import JackToolchain.Assembly.Reader
import JackToolchain.Assembly.SymbolTable

/-!
# Assembled programs

Assembling takes two passes over the instructions. The first gives each label the number of
instructions before it; the second encodes the instructions and gives a cell to each symbol that
is neither a label nor a name of the platform, in the order of their first uses.
-/
namespace JackToolchain.Assembly

open Machine (Word)

/-- An assembled program. -/
structure Program where
  /-- The words in order. -/
  words : Array Word
  /-- The addresses of all symbols. -/
  symbols : SymbolTable

/-- The first pass: adds the labels to a table and counts the instructions that are no labels.
A label must be new. -/
def bindLabels (table : SymbolTable) (count : Nat) :
    List (Spanned Instruction) → Outcome (SymbolTable × Nat)
  | [] => .ok (table, count)
  | ⟨.label name, span⟩ :: rest =>
    if table.contains name then .error ⟨.duplicate "program" name, span⟩
    else bindLabels (table.insert name (UInt16.ofNat count)) count rest
  | _ :: rest => bindLabels table (count + 1) rest

/-- The second pass: adds the words of the instructions to `words`. -/
def encodeAll (table : SymbolTable) (words : Array Word) :
    List (Spanned Instruction) → Outcome Program
  | [] => .ok ⟨words, table⟩
  | ⟨.label _, _⟩ :: rest => encodeAll table words rest
  | ⟨.address value, _⟩ :: rest => encodeAll table (words.push (UInt16.ofNat value)) rest
  | ⟨.symbol name, _⟩ :: rest =>
    let (address, table) := table.allocate name
    encodeAll table (words.push address) rest
  | ⟨.compute dest comp jump, span⟩ :: rest =>
    match encodeCompute? dest comp jump with
    | some word => encodeAll table (words.push word) rest
    | none => .error ⟨.unsupportedInstruction (.compute dest comp jump), span⟩

/-- Assembles instructions. A program with more instructions than the program memory holds is
refused, but a label given twice is found first. -/
def assembleInstructions (instructions : List (Spanned Instruction)) : Outcome Program := do
  let (table, count) ← bindLabels .initial 0 instructions
  if romSize < count then .error ⟨.malformed (.programTooLong count), .nowhere⟩
  else encodeAll table #[] instructions

/-- Assembles a text. -/
def assemble (source : String) : Outcome Program := do
  assembleInstructions (← readProgram source)

/-- The text of a program in binary: one word to a line. -/
def Program.binaryText (program : Program) : String :=
  String.join (program.words.toList.map fun word => Text.binary 16 word.toNat ++ "\n")

end JackToolchain.Assembly
