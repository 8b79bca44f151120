/-!
# Assembly instructions

The instructions of the target machine as they are written. A compute instruction keeps its three
fields as text: reading it does not ask whether they can be encoded. A line of a generated
program is an instruction or a comment.
-/
namespace JackToolchain.Assembly

/-- One instruction or label. -/
inductive Instruction where
  /-- Loads a number into the address register. -/
  | address (value : Nat)
  /-- Loads the address of a symbol into the address register. -/
  | symbol (name : String)
  /-- Computes `comp`, stores it in `dest` and jumps on `jump`; either may be empty. -/
  | compute (dest comp jump : String)
  /-- Names the place of the next instruction. -/
  | label (name : String)
deriving DecidableEq

/-- The canonical text of an instruction; an empty field is left out with its separator. -/
def Instruction.text : Instruction → String
  | .address value => "@" ++ value.repr
  | .symbol name => "@" ++ name
  | .compute dest comp jump =>
    (if dest.isEmpty then "" else dest ++ "=") ++ comp ++
      (if jump.isEmpty then "" else ";" ++ jump)
  | .label name => "(" ++ name ++ ")"

/-- Stores a computed value without a jump. -/
def Instruction.store (dest comp : String) : Instruction := .compute dest comp ""

/-- Jumps on a computed value without storing it. -/
def Instruction.jump (comp condition : String) : Instruction := .compute "" comp condition

/-- A line of a generated program. -/
inductive Line where
  | code (instruction : Instruction)
  | comment (text : String)
deriving DecidableEq

/-- The text of a line. -/
def Line.text : Line → String
  | .code instruction => instruction.text
  | .comment text => "// " ++ text

/-- The text of consecutive lines, without a line end after the last. -/
def linesText (lines : List Line) : String := "\n".intercalate (lines.map Line.text)

end JackToolchain.Assembly
