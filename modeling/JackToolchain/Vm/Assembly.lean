import JackToolchain.Vm.Frame

/-!
# Assembly of units

A unit is translated command by command. Its labels belong to the function that encloses them, or
to the unit before its first function; the labels that a comparison or a call needs are numbered
through the unit. A label of a program has no `$`, so the three families of generated symbols
stay apart: `scope$name` for labels, `scope$cmp$n` for comparisons and `scope$ret$n` for calls.
-/
namespace JackToolchain.Vm

open Assembly (Instruction Line)

/-- What the instructions for a command depend on, of the commands before it. -/
structure Numbering where
  /-- The function that owns labels here, or the unit before its first function. -/
  scope : String
  /-- The number of comparisons so far. -/
  comparisons : Nat := 0
  /-- The number of calls so far. -/
  calls : Nat := 0

namespace Numbering

/-- The symbol of a label. -/
def labelSymbol (numbering : Numbering) (name : String) : String :=
  numbering.scope ++ "$" ++ name

/-- The symbol of the end of the next comparison. -/
def comparisonSymbol (numbering : Numbering) : String :=
  numbering.labelSymbol ("cmp$" ++ numbering.comparisons.repr)

/-- The symbol that the next call comes back to. -/
def returnSymbol (numbering : Numbering) : String :=
  numbering.labelSymbol ("ret$" ++ numbering.calls.repr)

/-- The numbering after a command. -/
def after (numbering : Numbering) : Command → Numbering
  | .operate operation =>
    if operation.isComparison then
      { numbering with comparisons := numbering.comparisons + 1 }
    else numbering
  | .function name _ => { numbering with scope := name }
  | .call _ _ => { numbering with calls := numbering.calls + 1 }
  | _ => numbering

end Numbering

/-- The largest count that a command may have, if it has one: a call loads its count and the size
of a frame as one number. -/
def Command.countLimit? (layout : Layout) : Command → Option (Nat × Nat)
  | .function _ locals => some (locals, layout.maxConstant)
  | .call _ args => some (args, layout.maxConstant - frameSize)
  | _ => none

/-- The instructions of a command whose count is in range. -/
def Command.block (layout : Layout) (unit : String) (numbering : Numbering) :
    Command → Except Fault (List Instruction)
  | .operate operation => .ok (operation.block numbering.comparisonSymbol)
  | .push segment index => do
    let location ← locate layout unit segment index (.push segment index)
    return location.push
  | .pop segment index => do
    let location ← locate layout unit segment index (.pop segment index)
    match location.pop? layout with
    | some block => return block
    | none => .error (.unsupportedCommand (.pop segment index))
  | .label name => .ok [.label (numbering.labelSymbol name)]
  | .goto name => .ok (gotoBlock (numbering.labelSymbol name))
  | .ifGoto name => .ok (ifGotoBlock (numbering.labelSymbol name))
  | .function name locals => .ok (functionBlock name locals)
  | .call name args => .ok (callBlock name args numbering.returnSymbol)
  | .return => .ok (returnBlock layout)

/-- The instructions of a command. -/
def Command.instructions (layout : Layout) (unit : String) (numbering : Numbering)
    (command : Command) : Except Fault (List Instruction) :=
  match command.countLimit? layout with
  | some (count, limit) =>
    if limit < count then .error (.malformed (.countOutOfRange count command limit))
    else command.block layout unit numbering
  | none => command.block layout unit numbering

/-- The lines of a block, with a comment in front if comments are wanted. -/
def blockLines (comments : Bool) (comment : String) (block : List Instruction) : List Line :=
  (if comments then [.comment comment] else []) ++ block.map .code

/-- Adds the blocks of commands to `done`, which is in reverse, and stops at the first command
that has none. -/
def blocksInto (layout : Layout) (comments : Bool) (unit : String) (done : List (List Line))
    (numbering : Numbering) : List (Spanned Command) → Outcome (List (List Line))
  | [] => .ok done.reverse
  | ⟨command, span⟩ :: rest =>
    match command.instructions layout unit numbering with
    | .ok block =>
      blocksInto layout comments unit (blockLines comments command.text block :: done)
        (numbering.after command) rest
    | .error fault => .error ⟨fault, span⟩

/-- The lines of a unit. -/
def unitLines (layout : Layout) (comments : Bool) (unit : String)
    (commands : List (Spanned Command)) : Outcome (List Line) := do
  let blocks ← blocksInto layout comments unit [] { scope := unit } commands
  return blocks.flatten

/-- The unit name that owns the label of the bootstrap's call. -/
def bootstrapUnit : String := "Bootstrap"

/-- The start of a program: sets the stack pointer and calls the entry. -/
def bootstrapLines (layout : Layout) (comments : Bool) : List Line :=
  let numbering : Numbering := { scope := bootstrapUnit }
  blockLines comments "bootstrap"
    ([.address layout.stackBase, .store "D" "A", .symbol "SP", .store "M" "D"] ++
      callBlock layout.entry 0 numbering.returnSymbol)

/-- The label of the loop in which a program without a bootstrap ends. -/
def haltLabel : String := "END"

/-- The end of a program without a bootstrap: a loop that does nothing. -/
def haltLines : List Line :=
  blockLines false "" [.label haltLabel, .symbol haltLabel, .jump "0" "JMP"]

end JackToolchain.Vm
