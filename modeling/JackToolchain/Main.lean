import JackToolchain.CommandLine.Session

/-!
# The program

Runs a session on the files of the machine and prints what it said. Faults of source texts are
shown with the file and the line in which they stand.
-/
namespace JackToolchain.Main

open CommandLine (Notice Transcript)
open Files (FileError FileSystem Path)

/-- A path as the machine takes it. -/
def onDisk (path : Path) := (IO.FS.DirEntry.mk "." path.text).path

/-- The reason of a failed operation on files. -/
def reasonOf : IO.Error → FileError
  | .noFileOrDirectory _ _ _ => .notFound
  | .alreadyExists _ _ _ => .alreadyExists
  | .inappropriateType _ 20 _ => .notADirectory
  | .inappropriateType _ 21 _ => .isADirectory
  | .invalidArgument _ 36 _ => .nameTooLong
  | error => .other error.toString

/-- Does something with the files, unless the path has a zero character or is empty: neither leads
anywhere. -/
def attempt {α : Type} (path : Path) (action : IO (Except FileError α)) :
    IO (Except FileError α) := do
  if '\x00' ∈ path.text.toList then return .error .zeroInName
  if path.text.isEmpty then return .error .notFound
  try action catch error => return .error (reasonOf error)

/-- The kind of node that a path leads to, if it leads to one. -/
def kindOf? (path : Path) : IO (Option IO.FS.FileType) := do
  let found ← attempt path do return .ok (← (onDisk path).metadata).type
  return found.toOption

instance : FileSystem IO where
  isDirectory path := return (← kindOf? path) == some .dir
  isFile path := return (← kindOf? path) == some .file
  entryNames path := attempt path do
    return .ok ((← (onDisk path).readDir).map IO.FS.DirEntry.fileName).toList
  readText path := attempt path do
    let content ← IO.FS.readBinFile (onDisk path)
    match String.fromUTF8? content with
    | some text => return .ok text
    | none => return .error .invalidText
  makeDirectory path := attempt path do return .ok (← IO.FS.createDir (onDisk path))
  writeText path text := attempt path do return .ok (← IO.FS.writeFile (onDisk path) text)

/-- The text of a notice. -/
def noticeText : Notice → String
  | .status line => line
  | .report report =>
    let place := report.fault.span.lineIn report.unit.source
    s!"{report.unit.filename}:{place}: {report.diagnostic.text}"

end JackToolchain.Main

/-- Runs the program on its arguments. -/
def main (arguments : List String) : IO UInt32 := do
  let (code, transcript) ← JackToolchain.CommandLine.session arguments
  for notice in transcript.notices.reverse do
    IO.eprintln (JackToolchain.Main.noticeText notice)
  IO.print transcript.output
  return UInt32.ofNat code
