import JackToolchain.Text.Numeral

/-!
# Commands of the stack machine

The instruction set between a class and its assembly, with the text of each command and its
effect on the depth of the stack. An operation or a segment is found by searching the list of
all of them for its name.
-/
namespace JackToolchain.Vm

/-- The logical memory regions that a command addresses by an index. -/
inductive Segment where
  | «local» | argument | this | that | constant | static | pointer | temp
deriving DecidableEq

/-- The name of a segment. -/
def Segment.name : Segment → String
  | .local => "local"
  | .argument => "argument"
  | .this => "this"
  | .that => "that"
  | .constant => "constant"
  | .static => "static"
  | .pointer => "pointer"
  | .temp => "temp"

/-- Every segment. -/
def Segment.all : List Segment :=
  [.local, .argument, .this, .that, .constant, .static, .pointer, .temp]

/-- The segment with this name. -/
def Segment.ofName? (name : String) : Option Segment :=
  Segment.all.find? fun segment => segment.name == name

/-- Operations on the words at the top of the stack. -/
inductive Operation where
  | add | sub | neg | eq | gt | lt | and | or | not
deriving DecidableEq

/-- The name of an operation. -/
def Operation.name : Operation → String
  | .add => "add"
  | .sub => "sub"
  | .neg => "neg"
  | .eq => "eq"
  | .gt => "gt"
  | .lt => "lt"
  | .and => "and"
  | .or => "or"
  | .not => "not"

/-- Every operation. -/
def Operation.all : List Operation := [.add, .sub, .neg, .eq, .gt, .lt, .and, .or, .not]

/-- The operation with this name. -/
def Operation.ofName? (name : String) : Option Operation :=
  Operation.all.find? fun operation => operation.name == name

/-- The operations on one word. -/
def Operation.isUnary : Operation → Bool
  | .neg | .not => true
  | _ => false

/-- The operations that leave a truth value. -/
def Operation.isComparison : Operation → Bool
  | .eq | .gt | .lt => true
  | _ => false

/-- One command. -/
inductive Command where
  | operate (operation : Operation)
  | push (segment : Segment) (index : Nat)
  | pop (segment : Segment) (index : Nat)
  | label (name : String)
  | goto (name : String)
  | ifGoto (name : String)
  | function (name : String) (locals : Nat)
  | call (name : String) (args : Nat)
  | «return»
deriving DecidableEq

/-- The canonical text of a command. -/
def Command.text : Command → String
  | .operate operation => operation.name
  | .push segment index => "push " ++ segment.name ++ " " ++ index.repr
  | .pop segment index => "pop " ++ segment.name ++ " " ++ index.repr
  | .label name => "label " ++ name
  | .goto name => "goto " ++ name
  | .ifGoto name => "if-goto " ++ name
  | .function name locals => "function " ++ name ++ " " ++ locals.repr
  | .call name args => "call " ++ name ++ " " ++ args.repr
  | .return => "return"

/-- The canonical text of a program: one command to a line, each line ended. -/
def render (commands : List Command) : String :=
  String.join (commands.map fun command => command.text ++ "\n")

/-- By how much a command changes the depth of the stack, as the code around it sees it. A call
takes its arguments and leaves one result; a return hands over the word on top. -/
def Command.stackEffect : Command → Int
  | .operate operation => if operation.isUnary then 0 else -1
  | .push _ _ => 1
  | .pop _ _ => -1
  | .ifGoto _ => -1
  | .call _ args => 1 - args
  | .return => -1
  | .label _ | .goto _ | .function _ _ => 0

/-- The effect of a straight run of commands. -/
def netStackEffect (commands : List Command) : Int :=
  commands.foldr (fun command rest => command.stackEffect + rest) 0

/-- A stack effect as it is reported: a signed number of 32 bits. -/
def reportedEffect (effect : Int) : Int := effect.bmod Text.bound32

/-- Every segment is found by its name. -/
theorem Segment.ofName?_name (segment : Segment) :
    Segment.ofName? segment.name = some segment := by
  cases segment <;> decide

/-- Every operation is found by its name. -/
theorem Operation.ofName?_name (operation : Operation) :
    Operation.ofName? operation.name = some operation := by
  cases operation <;> decide

end JackToolchain.Vm
