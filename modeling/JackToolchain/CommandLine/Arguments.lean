import JackToolchain.Files.Path
import JackToolchain.Text.Numeral

/-!
# Arguments

Reads the arguments of the program as a request. A long flag is `--name`, an option has a value
as `--name value` or `--name=value`; a short one is a letter after a single dash, and flags may
be run together. A value that starts with a dash must be attached to its option. After `--`
everything is an input. Nothing may be given twice.

Arguments are judged in order: the first one that breaks the rules or asks for help or for the
version decides. What they lack and which of them exclude each other is judged after the last.
-/
namespace JackToolchain.CommandLine

open Files (Path)

/-- What the program is asked to do. -/
inductive Request where
  /-- Compiles classes to stack-machine text. -/
  | compile (input : Path)
  /-- Makes a program of stack-machine text. -/
  | translate (input : Path) (output : Option Path) (bootstrap : Option Bool) (comments : Bool)
  /-- Makes a program of classes, and its binary form if that is wanted too. -/
  | build (input : Path) (output : Option Path) (binary : Bool)
  /-- Makes binary programs of assembly texts. -/
  | assemble (input : Path) (output : Option Path)
  /-- Runs an assembly text and shows so many words of the stack. -/
  | run (input : Path) (steps stack : Nat)
deriving DecidableEq

/-- Why arguments are no request. -/
inductive Refusal where
  /-- They break the rules. -/
  | usage
  /-- They ask how the program is used. -/
  | help
  /-- They ask for the version of the program. -/
  | version
deriving DecidableEq

/-- Reads a number of 64 bits, with or without a plus sign. -/
def readSteps? (text : List Char) : Option Nat :=
  let digits := if text.head? = some '+' then text.tail else text
  (Text.readDecimal? digits).filter (· < Text.bound64)

/-- Reads a number of 16 bits, with or without a sign; only zero may have a minus sign. -/
def readStack? (text : List Char) : Option Nat :=
  match text with
  | '-' :: digits => (Text.readDecimal? digits).filter (· = 0)
  | '+' :: digits => (Text.readDecimal? digits).filter (· < Text.bound16)
  | digits => (Text.readDecimal? digits).filter (· < Text.bound16)

/-- Reads a path, which must not be empty. -/
def readPath? (text : String) : Option Path := if text.isEmpty then none else some ⟨text⟩

/-- The value of an option. -/
inductive Value where
  | path (path : Path)
  | number (number : Nat)
deriving DecidableEq

/-- What the values of an option stand for. -/
inductive ValueKind where
  /-- A path. -/
  | path
  /-- A number of instructions. -/
  | steps
  /-- A number of words. -/
  | words
deriving DecidableEq

/-- Reads the value of an option. -/
def ValueKind.read? (kind : ValueKind) (text : String) : Option Value :=
  match kind with
  | .path => (readPath? text).map .path
  | .steps => (readSteps? text.toList).map .number
  | .words => (readStack? text.toList).map .number

/-- An option: its name, and what its values stand for. -/
structure Setting where
  /-- Its name. -/
  name : String
  /-- What its values stand for. -/
  kind : ValueKind
deriving DecidableEq

/-- The flags and options that a command knows. -/
structure Grammar where
  /-- The names of its flags. -/
  flags : List String
  /-- Its options. -/
  options : List Setting := []
  /-- The letters of the flags and options that have one. -/
  letters : List (Char × String)

/-- What was given so far. -/
structure Given where
  /-- The flags. -/
  flags : List String := []
  /-- The options with their values. -/
  values : List (String × Value) := []
  /-- The only input, if there was one. -/
  input : Option Path := none

namespace Given

/-- Adds a flag, which must be new. -/
def addFlag (given : Given) (name : String) : Except Refusal Given :=
  if name = "help" then .error .help
  else if name = "version" then .error .version
  else if name ∈ given.flags then .error .usage
  else .ok { given with flags := name :: given.flags }

/-- Adds an option with its value. The option must be new, and the text a value of its kind. -/
def addValue (given : Given) (option : Setting) (text : String) : Except Refusal Given :=
  match given.values.lookup option.name, option.kind.read? text with
  | none, some value => .ok { given with values := (option.name, value) :: given.values }
  | _, _ => .error .usage

/-- Adds the input. -/
def addInput (given : Given) (text : String) : Except Refusal Given :=
  match given.input, readPath? text with
  | none, some path => .ok { given with input := some path }
  | _, _ => .error .usage

/-- The input, which must be there. -/
def path (given : Given) : Except Refusal Path := given.input.elim (.error .usage) .ok

/-- The path that an option gives. -/
def path? (given : Given) (name : String) : Option Path :=
  match given.values.lookup name with
  | some (.path path) => some path
  | _ => none

/-- The number that an option gives. -/
def number? (given : Given) (name : String) : Option Nat :=
  match given.values.lookup name with
  | some (.number number) => some number
  | _ => none

end Given

/-- A long argument cut at its first `=`: the name, and the value if there is one. -/
def splitLong (text : List Char) : String × Option String :=
  let name := String.ofList (text.takeWhile (· ≠ '='))
  match text.dropWhile (· ≠ '=') with
  | [] => (name, none)
  | _ :: value => (name, some (String.ofList value))

namespace Grammar

/-- The option with this name. -/
def option? (grammar : Grammar) (name : String) : Option Setting :=
  grammar.options.find? fun option => option.name == name

/-- Reads a long flag or option after its dashes. An option without a value waits for the next
argument: it is the second result. -/
def readLong (grammar : Grammar) (given : Given) (text : List Char) :
    Except Refusal (Given × Option Setting) :=
  let (name, value) := splitLong text
  match grammar.option? name, value with
  | some option, some value => do return (← given.addValue option value, none)
  | some option, none => .ok (given, some option)
  | none, some _ => .error .usage
  | none, none =>
    if name ∈ grammar.flags then do return (← given.addFlag name, none) else .error .usage

/-- Reads short flags that are run together, of which the last may be an option. -/
def readLetters (grammar : Grammar) (given : Given) :
    List Char → Except Refusal (Given × Option Setting)
  | [] => .ok (given, none)
  | letter :: rest =>
    match grammar.letters.lookup letter with
    | none => .error .usage
    | some name =>
      match grammar.option? name, rest with
      | none, rest => do
        let given ← given.addFlag name
        grammar.readLetters given rest
      | some option, [] => .ok (given, some option)
      | some option, '=' :: value => do
        return (← given.addValue option (String.ofList value), none)
      | some option, value => do return (← given.addValue option (String.ofList value), none)

/-- Reads one argument, unless it is an input. -/
def readFlag? (grammar : Grammar) (given : Given) (argument : String) :
    Option (Except Refusal (Given × Option Setting)) :=
  match argument.toList with
  | '-' :: '-' :: text => some (grammar.readLong given text)
  | '-' :: letter :: rest => some (grammar.readLetters given (letter :: rest))
  | _ => none

/-- Whether an argument can be a value of its own. -/
def isValue (argument : String) : Bool :=
  argument = "-" || argument.toList.head? ≠ some '-'

/-- Reads the arguments of a command; `waiting` is the option whose value comes next. -/
def read (grammar : Grammar) (given : Given) (waiting : Option Setting) :
    List String → Except Refusal Given
  | [] => if waiting.isSome then .error .usage else .ok given
  | argument :: rest =>
    match waiting with
    | some option =>
      if isValue argument then do
        let given ← given.addValue option argument
        grammar.read given none rest
      else .error .usage
    | none =>
      if argument = "--" then rest.foldlM Given.addInput given
      else
        match grammar.readFlag? given argument with
        | none => do
          let given ← given.addInput argument
          grammar.read given none rest
        | some result => do
          let (given, waiting) ← result
          grammar.read given waiting rest

/-- Reads the arguments up to the name of a command: the name and the arguments after it. -/
def readCommand (grammar : Grammar) (given : Given) :
    List String → Except Refusal (String × List String)
  | [] => .error .usage
  | argument :: rest =>
    if argument = "--" then .error .usage
    else
      match grammar.readFlag? given argument with
      | none => .ok (argument, rest)
      | some result => do
        let (given, _) ← result
        grammar.readCommand given rest

/-- The grammar in front of the name of a command. -/
def general : Grammar where
  flags := ["verbose", "help", "version"]
  letters := [('v', "verbose"), ('h', "help"), ('V', "version")]

/-- The option for the place of the output. -/
def output : Setting := ⟨"output", .path⟩

/-- The grammar of a command with these flags and options. -/
def ofCommand (flags : List String) (options : List Setting) : Grammar where
  flags := ["verbose", "help"] ++ flags
  options := options
  letters := [('v', "verbose"), ('h', "help")] ++
    (if output ∈ options then [('o', output.name)] else [])

end Grammar

/-- The names of the commands. -/
def commandNames : List String := ["compile", "translate", "build", "assemble", "run"]

/-- Reads the arguments of a command. -/
def readArguments (command : String) (arguments : List String) : Except Refusal Request := do
  match command with
  | "compile" =>
    let given ← (Grammar.ofCommand [] []).read {} none arguments
    return .compile (← given.path)
  | "translate" =>
    let flags := ["bootstrap", "no-bootstrap", "comments"]
    let given ← (Grammar.ofCommand flags [Grammar.output]).read {} none arguments
    let (wanted, unwanted) := (given.flags.contains "bootstrap", given.flags.contains "no-bootstrap")
    if wanted && unwanted then throw .usage
    let bootstrap := if wanted then some true else if unwanted then some false else none
    return .translate (← given.path) (given.path? Grammar.output.name) bootstrap
      (given.flags.contains "comments")
  | "build" =>
    let given ← (Grammar.ofCommand ["hack"] [Grammar.output]).read {} none arguments
    return .build (← given.path) (given.path? Grammar.output.name) (given.flags.contains "hack")
  | "assemble" =>
    let given ← (Grammar.ofCommand [] [Grammar.output]).read {} none arguments
    return .assemble (← given.path) (given.path? Grammar.output.name)
  | "run" =>
    let options : List Setting := [⟨"steps", .steps⟩, ⟨"stack", .words⟩]
    let given ← (Grammar.ofCommand [] options).read {} none arguments
    return .run (← given.path) ((given.number? "steps").getD 1000000)
      ((given.number? "stack").getD 1)
  | "help" =>
    match arguments with
    | [] => throw .help
    | [name] => if name = "help" ∨ name ∈ commandNames then throw .help else throw .usage
    | _ => throw .usage
  | _ => throw .usage

/-- Reads the arguments of the program. -/
def Request.read (arguments : List String) : Except Refusal Request := do
  let (command, rest) ← Grammar.general.readCommand {} arguments
  readArguments command rest

end JackToolchain.CommandLine
