import JackToolchain.Fault
import JackToolchain.Text.Listing

/-!
# Reading assembly text

A program is a listing of instructions. `Instruction.read` reads the text of one line:
`@` and digits is an address, `@` and a symbol loads the symbol's address, a symbol in
parentheses is a label, and anything else is a compute instruction. Of a compute instruction,
what stands before the first `=` is its destination and what stands after the next `;` its
jump; white space inside it does not count.
-/
namespace JackToolchain.Assembly

/-- The largest address that an instruction can load. -/
def maxAddress : Nat := 32767

/-- The characters of a symbol. -/
def isSymbolChar (c : Char) : Bool :=
  c.isAlphanum || c == '_' || c == '.' || c == '$' || c == ':'

/-- Symbols: not empty, of symbol characters, not starting with a digit. -/
def isSymbol (text : List Char) : Bool :=
  match text with
  | [] => false
  | first :: _ => !first.isDigit && text.all isSymbolChar

/-- Reads a symbol; `line` is the line it stands on. -/
def readSymbol (line : String) (text : List Char) : Except Fault String :=
  if isSymbol text then .ok (String.ofList text)
  else .error (.malformed (.invalidSymbol (String.ofList text) line))

/-- Reads what follows the `@` of an instruction. -/
def readAddress (line : String) (text : List Char) : Except Fault Instruction :=
  match Text.readDecimal? text with
  | some value =>
    if value ≤ maxAddress then .ok (.address value)
    else .error (.malformed (.addressTooLarge (String.ofList text)))
  | none => do return .symbol (← readSymbol line text)

/-- Reads what follows the opening parenthesis of a label. -/
def readLabel (line : String) (text : List Char) : Except Fault Instruction :=
  if text.getLast? = some ')' then do return .label (← readSymbol line text.dropLast)
  else .error (.malformed (.unterminatedLabel line))

/-- Cuts a text at the first `mark`: what stands before it and what stands after it, or nothing
when the mark does not occur. -/
def cutAt? (mark : Char) (text : List Char) : Option (List Char × List Char) :=
  if mark ∈ text then
    some (text.takeWhile (· ≠ mark), (text.dropWhile (· ≠ mark)).drop 1)
  else none

/-- Reads a compute instruction from a text without white space. -/
def readCompute (line : String) (text : List Char) : Except Fault Instruction :=
  let (dest, rest) := (cutAt? '=' text).getD ([], text)
  let (comp, jump) := (cutAt? ';' rest).getD (rest, [])
  if comp.isEmpty then .error (.malformed (.missingComputation line))
  else .ok (.compute (String.ofList dest) (String.ofList comp) (String.ofList jump))

/-- Reads the instruction on a line that holds no comment. -/
def Instruction.read (line : String) : Except Fault Instruction :=
  match line.toList with
  | '@' :: rest => readAddress line rest
  | '(' :: rest => readLabel line rest
  | text => readCompute line (text.filter fun c => !Text.isBlank c)

/-- Reads a program; each instruction has the place of its text. -/
def readProgram (source : String) : Outcome (List (Spanned Instruction)) :=
  (Text.items source).mapM fun item =>
    match Instruction.read item.node with
    | .ok instruction => .ok ⟨instruction, item.span⟩
    | .error fault => .error ⟨fault, item.span⟩

end JackToolchain.Assembly
