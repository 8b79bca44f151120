import JackToolchain.Assembly.Program
import JackToolchain.Diagnostic
import JackToolchain.Jack.Commands
import JackToolchain.Vm.Assembly
import JackToolchain.Vm.Reader

/-!
# Programs from units

A program is made from units, each a class or a file of stack-machine text. Units are translated
on their own, so every unit with a fault is reported, in the order of the units; the lines of the
program are those of the units in order, after the bootstrap or before the halting loop.
-/
namespace JackToolchain

open Assembly (Line)

/-- The choices that do not stand in the source texts. -/
structure Options where
  /-- The memory map. -/
  layout : Vm.Layout := {}
  /-- The run-time library. -/
  runtime : Vm.RuntimeNames := {}
  /-- Whether a program starts with the bootstrap rather than ends in a loop. -/
  bootstrap : Bool := true
  /-- Whether each block of a program has a comment with its command. -/
  comments : Bool := false

/-- One source text of a program. -/
structure SourceUnit where
  /-- The name that qualifies its static cells and its labels. -/
  name : String
  /-- The name under which its faults are reported. -/
  filename : String
  /-- The text. -/
  source : String

/-- A fault of a unit. -/
structure Report where
  /-- The unit. -/
  unit : SourceUnit
  /-- Its first fault. -/
  fault : Spanned Fault

/-- What is said about a fault of a unit. -/
def Report.diagnostic (report : Report) : Diagnostic := .ofFault report.fault

/-- The result of a unit, or the report on its fault. -/
def SourceUnit.reporting {α : Type} (unit : SourceUnit) : Outcome α → Except Report α
  | .ok value => .ok value
  | .error fault => .error ⟨unit, fault⟩

/-- The stack-machine text of a class. -/
def compileUnit (options : Options) (unit : SourceUnit) : Except Report String :=
  unit.reporting do return Vm.render (← Jack.compile options.runtime unit.source)

/-- The lines of a unit of stack-machine text. -/
def translateUnit (options : Options) (unit : SourceUnit) : Except Report (List Line) :=
  unit.reporting do
    let commands ← Vm.readProgram unit.source
    Vm.unitLines options.layout options.comments unit.name commands

/-- The lines of a class. The commands of a class have no place in a text of their own. -/
def buildUnit (options : Options) (unit : SourceUnit) : Except Report (List Line) :=
  unit.reporting do
    let commands ← Jack.compile options.runtime unit.source
    Vm.unitLines options.layout options.comments unit.name
      (commands.map fun command => ⟨command, .nowhere⟩)

/-- All results, or all errors, in order. -/
def collect {ε α : Type} (results : List (Except ε α)) : Except (List ε) (List α) :=
  let errors := results.filterMap fun
    | .error error => some error
    | .ok _ => none
  if errors.isEmpty then
    .ok (results.filterMap fun
      | .ok value => some value
      | .error _ => none)
  else .error errors

/-- The lines of a program from the lines of its units. -/
def programLines (options : Options) (units : List (List Line)) : List Line :=
  if options.bootstrap then
    Vm.bootstrapLines options.layout options.comments ++ units.flatten
  else units.flatten ++ Vm.haltLines

/-- The text of a program from its units, or the reports on all units that have faults. -/
def link (options : Options) (units : List (Except Report (List Line))) :
    Except (List Report) String := do
  let units ← collect units
  return Assembly.linesText (programLines options units) ++ "\n"

/-- The program of units of stack-machine text. -/
def translate (options : Options) (units : List SourceUnit) : Except (List Report) String :=
  link options (units.map (translateUnit options))

/-- The program of classes. -/
def build (options : Options) (units : List SourceUnit) : Except (List Report) String :=
  link options (units.map (buildUnit options))

/-- The binary program of an assembly text. -/
def assembleUnit (unit : SourceUnit) : Except Report Assembly.Program :=
  unit.reporting (Assembly.assemble unit.source)

end JackToolchain
