import JackToolchain.Build
import JackToolchain.Files.FileSystem

/-!
# Units in files

Units are loaded from a file or from all files of one kind in a directory, in the order of their
names, and a result is written next to its source unless another place is asked for.
-/
namespace JackToolchain.Files

/-- What can go wrong with the files of a program. -/
inductive FileFault where
  /-- A file cannot be read. -/
  | unreadable (path : Path) (error : FileError)
  /-- A directory cannot be read. -/
  | unreadableDirectory (path : Path) (error : FileError)
  /-- A directory cannot be made. -/
  | directoryNotMade (path : Path) (error : FileError)
  /-- A file cannot be written. -/
  | unwritable (path : Path) (error : FileError)
  /-- A directory holds no file of the kind. -/
  | noFiles (extension : String) (path : Path)
  /-- A file is not of the kind. -/
  | wrongKind (extension : String) (path : Path)
deriving DecidableEq

/-- The wording of a fault. -/
def FileFault.message : FileFault → String
  | unreadable path error => s!"cannot read '{path.text}': {error.message}"
  | unreadableDirectory path error => s!"cannot read directory '{path.text}': {error.message}"
  | directoryNotMade path error => s!"cannot create directory '{path.text}': {error.message}"
  | unwritable path error => s!"cannot write '{path.text}': {error.message}"
  | noFiles extension path => s!"no .{extension} files in '{path.text}'"
  | wrongKind extension path => s!"expected a .{extension} file, got '{path.text}'"

/-- Gives the error of a file operation its fault. -/
def faulty {α : Type} (fault : FileError → FileFault) (result : Except FileError α) :
    Except FileFault α :=
  result.mapError fault

variable {m : Type → Type} [Monad m] [FileSystem m]

/-- The unit in a file. -/
def loadUnit (path : Path) : ExceptT FileFault m SourceUnit := do
  let source ← ExceptT.mk do return faulty (.unreadable path) (← readText path)
  return { name := path.stem?.getD "", filename := path.text, source }

/-- The files of a directory that have an extension, in the order of their names. -/
def filesIn (directory : Path) (extension : String) : ExceptT FileFault m (List Path) := do
  let names ← ExceptT.mk do
    return faulty (.unreadableDirectory directory) (← entryNames directory)
  let paths := (names.mergeSort fun a b => decide (a ≤ b)).map directory.join
  let files ← paths.filterM fun path => do
    if path.extension? = some extension then ExceptT.lift (isFile path) else return false
  if files.isEmpty then throw (.noFiles extension directory)
  return files

/-- The units of a kind that a path leads to. -/
def loadUnits (path : Path) (extension : String) : ExceptT FileFault m (List SourceUnit) := do
  let files ←
    if ← ExceptT.lift (isDirectory path) then filesIn path extension
    else if path.extension? = some extension then pure [path]
    else throw (.wrongKind extension path)
  files.mapM loadUnit

/-- Where the program of a path goes: next to a file, or into a directory under its name. -/
def defaultOutput (input : Path) (extension : String) : m Path := do
  if ← isDirectory input then
    return input.join (input.fileName?.getD "out" ++ "." ++ extension)
  else return input.withExtension extension

/-- Where the result of a unit goes. -/
def unitOutput (unit : SourceUnit) (extension : String) : Path :=
  (Path.mk unit.filename).withExtension extension

/-- Writes a text into a file, with the directories above it. -/
def writeOutput (path : Path) (text : String) : ExceptT FileFault m Unit := do
  match path.parent? with
  | some parent =>
    ExceptT.mk do return faulty (.directoryNotMade parent) (← makeDirectories parent)
  | none => pure ()
  ExceptT.mk do return faulty (.unwritable path) (← writeText path text)

end JackToolchain.Files
