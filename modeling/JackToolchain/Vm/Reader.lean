import JackToolchain.Fault
import JackToolchain.Text.Listing

/-!
# Reading stack-machine text

A program is a listing of commands. `Command.read` reads the text of one line and inverts
`Command.text` on commands whose names are names of the language and whose numbers fit in
32 bits; `readProgram` reads a listing and stops at the first line that is no command.
-/
namespace JackToolchain.Vm

/-- The characters of a label or a function name. -/
def isNameChar (c : Char) : Bool := c.isAlphanum || c == '_' || c == '.' || c == ':'

/-- Labels and function names: not empty, of name characters, not starting with a digit. -/
def isName (text : List Char) : Bool :=
  match text with
  | [] => false
  | first :: _ => !first.isDigit && text.all isNameChar

/-- Reads an index or a count; `line` is the line it stands on. -/
def readIndex (line : String) (word : List Char) : Except Fault Nat :=
  match Text.readDecimal? word with
  | none => .error (.malformed (.notAnIndex (String.ofList word) line))
  | some value =>
    if value < Text.bound32 then .ok value
    else .error (.malformed (.indexTooLarge (String.ofList word) line))

/-- Reads a label or a function name. -/
def readName (line : String) (word : List Char) : Except Fault String :=
  if isName word then .ok (String.ofList word)
  else .error (.malformed (.invalidSymbol (String.ofList word) line))

/-- Reads a segment's name. -/
def readSegment (line : String) (word : List Char) : Except Fault Segment :=
  match Segment.ofName? (String.ofList word) with
  | some segment => .ok segment
  | none => .error (.malformed (.unknownSegment (String.ofList word) line))

/-- The fault of a command with another number of operands than `expected`. -/
def operandFault (expected : Nat) (line : String) (operands : List (List Char)) : Fault :=
  .malformed (.operandCount expected line operands.length)

/-- Reads a command without operands. -/
def readPlain (command : Command) (line : String) : List (List Char) → Except Fault Command
  | [] => .ok command
  | operands => .error (operandFault 0 line operands)

/-- Reads a command whose operand is a name. -/
def readNamed (command : String → Command) (line : String) :
    List (List Char) → Except Fault Command
  | [name] => do return command (← readName line name)
  | operands => .error (operandFault 1 line operands)

/-- Reads a command whose operands are a name and a count. -/
def readCounted (command : String → Nat → Command) (line : String) :
    List (List Char) → Except Fault Command
  | [name, count] => do
    let name ← readName line name
    return command name (← readIndex line count)
  | operands => .error (operandFault 2 line operands)

/-- Reads a command whose operands are a segment and an index. -/
def readAccess (command : Segment → Nat → Command) (line : String) :
    List (List Char) → Except Fault Command
  | [segment, index] => do
    let segment ← readSegment line segment
    return command segment (← readIndex line index)
  | operands => .error (operandFault 2 line operands)

/-- Reads a command from the words of its line. -/
def Command.ofWords (line : String) : List (List Char) → Except Fault Command
  | [] => .error (.malformed .emptyCommand)
  | word :: operands =>
    let opcode := String.ofList word
    match Operation.ofName? opcode with
    | some operation => readPlain (.operate operation) line operands
    | none =>
      match opcode with
      | "push" => readAccess .push line operands
      | "pop" => readAccess .pop line operands
      | "label" => readNamed .label line operands
      | "goto" => readNamed .goto line operands
      | "if-goto" => readNamed .ifGoto line operands
      | "function" => readCounted .function line operands
      | "call" => readCounted .call line operands
      | "return" => readPlain .return line operands
      | _ => .error (.unsupportedLine line)

/-- Reads the command on a line that holds no comment. -/
def Command.read (line : String) : Except Fault Command :=
  Command.ofWords line (Text.words line.toList)

/-- Reads a program; each command has the place of its text. -/
def readProgram (source : String) : Outcome (List (Spanned Command)) :=
  (Text.items source).mapM fun item =>
    match Command.read item.node with
    | .ok command => .ok ⟨command, item.span⟩
    | .error fault => .error ⟨fault, item.span⟩

end JackToolchain.Vm
