import JackToolchain.Files.Units

/-!
# Projects

A project is described by a file of settings: lines `key = value` below section headers in
brackets, with blank lines and lines that start with `#` between them. Quotation marks around a
key or a value do not count, and settings that have no meaning here are passed over. A later
setting replaces an earlier one.
-/
namespace JackToolchain

open Files (FileError FileFault FileSystem Path)

/-- A project. -/
structure Project where
  /-- Its name. -/
  name : String
  /-- The directory of its settings. -/
  root : Path
  /-- The directory of its classes. -/
  source : Path
  /-- Where its program goes. -/
  output : Path
  /-- How its classes are built. -/
  options : Options

/-- What can be wrong with a project. -/
inductive ProjectFault where
  /-- The settings cannot be read. -/
  | unreadable (path : Path) (error : FileError)
  /-- A line that is neither a setting nor a header. -/
  | notASetting (line : String)
  /-- A number that is none. -/
  | notANumber (key value : String)
  /-- A truth value that is none. -/
  | notAFlag (key value : String)
  /-- No name. -/
  | missingName
deriving DecidableEq

/-- The wording of a fault. -/
def ProjectFault.message : ProjectFault → String
  | unreadable path error => (FileFault.unreadable path error).message
  | notASetting line => s!"jack.toml: expected `key = value`, found '{line}'"
  | notANumber key value => s!"jack.toml: '{key}' must be a number, found {value}"
  | notAFlag key value => s!"jack.toml: '{key}' must be true or false, found {value}"
  | missingName => "jack.toml: missing 'name' in [project]"

/-- The settings read so far. An empty text is a setting that was not made. -/
structure Settings where
  /-- The section of the next line. -/
  «section» : String := ""
  /-- The name of the project. -/
  name : String := ""
  /-- The directory of the classes. -/
  source : String := ""
  /-- Where the program goes. -/
  output : String := ""
  /-- How the classes are built. -/
  options : Options := {}

/-- Reads a number of 32 bits. Underscores in it do not count, and a plus sign may stand in
front. -/
def readNumber? (value : List Char) : Option Nat :=
  let digits := (Text.trim value).filter (· ≠ '_')
  let digits := if digits.head? = some '+' then digits.tail else digits
  (Text.readDecimal? digits).filter (· < Text.bound32)

/-- Reads a truth value. -/
def readFlag? (value : List Char) : Option Bool :=
  match String.ofList (Text.trim value) with
  | "true" => some true
  | "false" => some false
  | _ => none

namespace Settings

/-- Makes a setting of the memory map. -/
def setLayout (settings : Settings) (change : Vm.Layout → Vm.Layout) : Settings :=
  { settings with options.layout := change settings.options.layout }

/-- Makes a setting of the run-time library. -/
def setRuntime (settings : Settings) (change : Vm.RuntimeNames → Vm.RuntimeNames) : Settings :=
  { settings with options.runtime := change settings.options.runtime }

/-- Makes the setting of a key in the current section. -/
def assign (settings : Settings) (key : String) (value : List Char) :
    Except ProjectFault Settings := do
  let text := String.ofList (Text.trimQuotes value)
  let number : Except ProjectFault Nat :=
    (readNumber? value).elim (.error (.notANumber key (String.ofList value))) .ok
  let flag : Except ProjectFault Bool :=
    (readFlag? value).elim (.error (.notAFlag key (String.ofList value))) .ok
  match settings.section, key with
  | "project", "name" => return { settings with name := text }
  | "project", "source" => return { settings with source := text }
  | "project", "output" => return { settings with output := text }
  | "build", "bootstrap" => return { settings with options.bootstrap := ← flag }
  | "build", "comments" => return { settings with options.comments := ← flag }
  | "runtime", "alloc" => return settings.setRuntime fun names => { names with alloc := text }
  | "runtime", "string_new" =>
    return settings.setRuntime fun names => { names with stringNew := text }
  | "runtime", "string_append" =>
    return settings.setRuntime fun names => { names with stringAppend := text }
  | "runtime", "multiply" =>
    return settings.setRuntime fun names => { names with multiply := text }
  | "runtime", "divide" => return settings.setRuntime fun names => { names with divide := text }
  | "machine", "stack_base" =>
    let number ← number
    return settings.setLayout fun layout => { layout with stackBase := number }
  | "machine", "temp_base" =>
    let number ← number
    return settings.setLayout fun layout => { layout with tempBase := number }
  | "machine", "temp_size" =>
    let number ← number
    return settings.setLayout fun layout => { layout with tempSize := number }
  | "machine", "entry" => return settings.setLayout fun layout => { layout with entry := text }
  | _, _ => return settings

/-- The name of the section that a line begins, if it is a header. -/
def header? (line : List Char) : Option String :=
  if line.head? = some '[' ∧ line.getLast? = some ']' then
    some (String.ofList (Text.trim line.tail.dropLast))
  else none

/-- Reads a line without white space around it. -/
def readLine (settings : Settings) (line : List Char) : Except ProjectFault Settings :=
  if line.isEmpty || line.head? = some '#' then .ok settings
  else
    match header? line with
    | some name => .ok { settings with «section» := name }
    | none =>
      match Assembly.cutAt? '=' line with
      | none => .error (.notASetting (String.ofList line))
      | some (key, value) =>
        settings.assign (String.ofList (Text.trimQuotes (Text.trim key))) (Text.trim value)

/-- The project with these settings. A project needs a name; its classes are in its root and its
program goes there under its name unless the settings say otherwise. -/
def toProject (settings : Settings) (root : Path) : Except ProjectFault Project :=
  if settings.name.isEmpty then .error .missingName
  else
    .ok {
      name := settings.name
      root := root
      source := if settings.source.isEmpty then root else root.join settings.source
      output := root.join
        (if settings.output.isEmpty then settings.name ++ ".asm" else settings.output)
      options := settings.options }

end Settings

namespace Project

/-- The name of a file of settings. -/
def fileName : String := "jack.toml"

/-- Reads the text of a file of settings in the directory `root`. -/
def read (root : Path) (text : String) : Except ProjectFault Project := do
  let lines := (Text.lines text.toList).map fun (_, line) => Text.trim line
  let settings ← lines.foldlM Settings.readLine {}
  settings.toProject root

variable {m : Type → Type} [Monad m] [FileSystem m]

/-- Loads a project from its file of settings. -/
def load (path : Path) : m (Except ProjectFault Project) := do
  match ← Files.readText path with
  | .error error => return .error (.unreadable path error)
  | .ok text => return read (path.parent?.getD ⟨"."⟩) text

/-- The first path of a list that leads to something. -/
def findPresent : List Path → m (Option Path)
  | [] => return none
  | path :: rest => do
    if (← Files.isFile path) || (← Files.isDirectory path) then return some path
    findPresent rest

/-- The file of settings in a directory, or in the nearest directory above it that has one. -/
def find (start : Path) : m (Option Path) :=
  findPresent (start.ancestors.map fun directory => directory.join fileName)

end Project

end JackToolchain
