import JackToolchain.CommandLine.Arguments
import JackToolchain.Machine.Cpu
import JackToolchain.Project

/-!
# Sessions

One run of the program: it carries out a request on a file system and leaves what it printed and
an exit code. What it prints is a value, so a session can be run on a tree of files as well as on
the files of the machine.
-/
namespace JackToolchain.CommandLine

open Files (FileFault FileSystem Path)
open Machine (Cpu StopReason Word)

/-- Something that the program says beside its output. -/
inductive Notice where
  /-- A line on the progress of the session. -/
  | status (line : String)
  /-- A fault of a source text. -/
  | report (report : Report)

/-- What a session printed. -/
structure Transcript where
  /-- Its output. -/
  output : String := ""
  /-- What it said beside its output, the last first. -/
  notices : List Notice := []

/-- The exit code of a session that failed. -/
def failure : Nat := 1

/-- The exit code of a session whose arguments are no request. -/
def misuse : Nat := 2

/-- A part of a session; it may end the session with an exit code. -/
abbrev Session (m : Type → Type) := ExceptT Nat (StateT Transcript m)

namespace Session

variable {m : Type → Type} [Monad m] {α : Type}

/-- Does something with the files. -/
def files (action : m α) : Session m α := ExceptT.lift (StateT.lift action)

/-- Prints output. -/
def print (text : String) : Session m Unit :=
  modify fun transcript => { transcript with output := transcript.output ++ text }

/-- Adds a notice. -/
def notice (notice : Notice) : Session m Unit :=
  modify fun transcript => { transcript with notices := notice :: transcript.notices }

/-- Says a line. -/
def status (line : String) : Session m Unit := notice (.status line)

/-- Ends the session because of an error. -/
def fail (message : String) : Session m α := do
  status ("error: " ++ message)
  throw failure

/-- Ends the session because of so many faults that were reported. -/
def abort (count : Nat) : Session m α :=
  let plural := if count = 1 then "" else "s"
  fail s!"aborting due to {count} previous error{plural}"

/-- The result of an action on files, whose fault ends the session. -/
def filesOrFail (action : ExceptT FileFault m α) : Session m α := do
  match ← files action.run with
  | .ok value => return value
  | .error fault => fail fault.message

/-- A result, in place of which reports end the session. -/
def orAbort : Except (List Report) α → Session m α
  | .ok value => return value
  | .error reports => do
    for report in reports do notice (.report report)
    abort reports.length

end Session

open Session

variable {m : Type → Type} [Monad m] [FileSystem m]

/-- Writes the result of one unit, and counts a fault instead if it has one. -/
def writeCompiled (failed : Nat) (unit : SourceUnit) : Session m Nat := do
  match compileUnit {} unit with
  | .ok text =>
    let path := Files.unitOutput unit "vm"
    filesOrFail (Files.writeOutput path text)
    status s!"Compiled {unit.name} -> {path.text}"
    return failed
  | .error report =>
    notice (.report report)
    return failed + 1

/-- Compiles classes to stack-machine text. Classes with faults do not keep the others from being
written. -/
def compileFiles (input : Path) : Session m Unit := do
  let units ← filesOrFail (Files.loadUnits input "jack")
  let failed ← units.foldlM writeCompiled 0
  if failed ≠ 0 then abort failed

/-- Makes a program of stack-machine text. Without a wish for or against it, a directory gets the
bootstrap and a file does not. -/
def translateFiles (input : Path) (output : Option Path) (bootstrap : Option Bool)
    (comments : Bool) : Session m Unit := do
  let units ← filesOrFail (Files.loadUnits input "vm")
  let inDirectory ← files (Files.isDirectory input)
  let program ← orAbort
    (translate { bootstrap := bootstrap.getD inDirectory, comments } units)
  let path ← output.elim (files (Files.defaultOutput input "asm")) pure
  filesOrFail (Files.writeOutput path program)
  status s!"Translated {units.length} unit(s) -> {path.text}"

/-- The project that a path is in, if it is in one. -/
def projectOf (input : Path) : Session m (Option Project) := do
  let start :=
    if ← files (Files.isDirectory input) then input else input.parent?.getD ⟨"."⟩
  match ← files (Project.find start) with
  | none => return none
  | some path =>
    match ← files (Project.load path) with
    | .ok project => return some project
    | .error fault => fail fault.message

/-- What is built from a path: the units, the options and where the program goes. A directory in
a project stands for the whole project, and a file for itself alone. -/
def buildPlan (input : Path) : Session m (List SourceUnit × Options × Path) := do
  let project ← projectOf input
  let inDirectory ← files (Files.isDirectory input)
  match project.filter fun _ => inDirectory with
  | some project =>
    let units ← filesOrFail (Files.loadUnits project.source "jack")
    return (units, project.options, project.output)
  | none =>
    let units ← filesOrFail (Files.loadUnits input "jack")
    return (units, {}, ← files (Files.defaultOutput input "asm"))

/-- Makes a program of classes, and its binary form if that is wanted too. -/
def buildFiles (input : Path) (output : Option Path) (binary : Bool) : Session m Unit := do
  let (units, options, standard) ← buildPlan input
  let program ← orAbort (build options units)
  let path := output.getD standard
  filesOrFail (Files.writeOutput path program)
  status s!"Built {units.length} class(es) -> {path.text}"
  if binary then
    let unit : SourceUnit := { name := path.text, filename := path.text, source := program }
    let assembled ← orAbort ((assembleUnit unit).mapError ([·]))
    let binaryPath := path.withExtension "hack"
    filesOrFail (Files.writeOutput binaryPath assembled.binaryText)
    status s!"Assembled -> {binaryPath.text}"

/-- Makes the binary program of one unit. -/
def assembleFile (output : Option Path) (unit : SourceUnit) : Session m Unit := do
  let program ← orAbort ((assembleUnit unit).mapError ([·]))
  let path := output.getD (Files.unitOutput unit "hack")
  filesOrFail (Files.writeOutput path program.binaryText)
  status s!"Assembled {unit.name} -> {path.text}"

/-- Makes binary programs of assembly texts. -/
def assembleFiles (input : Path) (output : Option Path) : Session m Unit := do
  let units ← filesOrFail (Files.loadUnits input "asm")
  units.forM (assembleFile output)

/-- How a run ended. -/
def outcomeText : StopReason → String
  | .halted => "halted"
  | .endOfProgram => "ran off the end of the program"
  | .breakpoint => "stopped at breakpoint"
  | .stepLimit => "step limit reached"

/-- The pointers that are shown after a run, and their cells. -/
def shownPointers : List (String × Word) :=
  [("SP", 0), ("LCL", 1), ("ARG", 2), ("THIS", 3), ("THAT", 4)]

/-- A name in a column of five characters. -/
def padded (name : String) : String := name.pushn ' ' (5 - name.length)

/-- The words at the top of the stack, the top first: at most `count` of them, and none below
address zero. -/
def stackLines (cpu : Cpu) (count : Nat) : List String :=
  let top := (Word.signed (cpu.read 0)).toNat
  (List.range (min count top)).map fun index =>
    let depth := index + 1
    s!"[SP-{depth}] {Word.signed (cpu.read (UInt16.ofNat (top - depth)))}"

/-- What is shown after a run. -/
def runText (reason : StopReason) (cpu : Cpu) (stack : Nat) : String :=
  let first := s!"{outcomeText reason} after {cpu.steps} steps (pc = {cpu.pc.toNat})"
  let pointers := shownPointers.map fun (name, address) =>
    s!"{padded name} {Word.signed (cpu.read address)}"
  String.join ((first :: pointers ++ stackLines cpu stack).map fun line => line ++ "\n")

/-- Runs an assembly text and shows the state of the machine after it. -/
def runFile (input : Path) (steps stack : Nat) : Session m Unit := do
  if input.extension? ≠ some "asm" then fail "input must be a .asm file"
  let unit ← filesOrFail (Files.loadUnit input)
  let program ← orAbort ((assembleUnit unit).mapError ([·]))
  let (reason, cpu) := (Cpu.boot program.words).run steps
  print (runText reason cpu stack)

/-- Carries out a request. -/
def perform : Request → Session m Unit
  | .compile input => compileFiles input
  | .translate input output bootstrap comments => translateFiles input output bootstrap comments
  | .build input output binary => buildFiles input output binary
  | .assemble input output => assembleFiles input output
  | .run input steps stack => runFile input steps stack

/-- How the program is used. -/
def usage : String := "Usage: jackc [-v] COMMAND

  compile INPUT                                  classes to stack-machine text
  translate INPUT [-o OUTPUT] [--bootstrap | --no-bootstrap] [--comments]
                                                 stack-machine text to assembly text
  build INPUT [-o OUTPUT] [--hack]               classes to assembly text
  assemble INPUT [-o OUTPUT]                     assembly text to binary text
  run INPUT [--steps COUNT] [--stack COUNT]      runs assembly text
"

/-- Runs the program on its arguments: the exit code and what it printed. -/
def session (arguments : List String) : m (Nat × Transcript) := do
  match Request.read arguments with
  | .ok request =>
    let (result, transcript) ← (perform request).run.run {}
    match result with
    | .ok () => return (0, transcript)
    | .error code => return (code, transcript)
  | .error .help => return (0, { output := usage })
  | .error .version => return (0, { output := "jackc 0.1.0\n" })
  | .error .usage => return (misuse, { notices := [.status usage] })

end JackToolchain.CommandLine
