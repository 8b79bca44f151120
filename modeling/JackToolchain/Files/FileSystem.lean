import JackToolchain.Files.Path

/-!
# File systems

What the program asks of the files around it. The program runs in any monad that answers these
questions: the files of the machine, or a tree of files that is a value.
-/
namespace JackToolchain.Files

/-- Why a file could not be read or written. -/
inductive FileError where
  | notFound
  | alreadyExists
  | notADirectory
  | isADirectory
  /-- A name, or the whole path, has too many bytes. -/
  | nameTooLong
  /-- The path has a zero character, which ends names. -/
  | zeroInName
  /-- The file is no text. -/
  | invalidText
  /-- Another reason, in the words of the system. -/
  | other (reason : String)
deriving DecidableEq

/-- The wording of a reason. -/
def FileError.message : FileError → String
  | notFound => "No such file or directory (os error 2)"
  | alreadyExists => "File exists (os error 17)"
  | notADirectory => "Not a directory (os error 20)"
  | isADirectory => "Is a directory (os error 21)"
  | nameTooLong => "File name too long (os error 36)"
  | zeroInName => "file name contained an unexpected NUL byte"
  | invalidText => "stream did not contain valid UTF-8"
  | other reason => reason

/-- What can be asked of a file system. -/
class FileSystem (m : Type → Type) where
  /-- Whether a path leads to a directory. -/
  isDirectory : Path → m Bool
  /-- Whether a path leads to a file. -/
  isFile : Path → m Bool
  /-- The names in a directory, in any order. -/
  entryNames : Path → m (Except FileError (List String))
  /-- The text of a file. -/
  readText : Path → m (Except FileError String)
  /-- Makes one directory. -/
  makeDirectory : Path → m (Except FileError Unit)
  /-- Makes a file with a text, or replaces its text. -/
  writeText : Path → String → m (Except FileError Unit)

export FileSystem (isDirectory isFile entryNames readText makeDirectory writeText)

variable {m : Type → Type} [Monad m] [FileSystem m]

/-- Makes a directory that is there in the end, whoever made it. -/
def ensureDirectory (path : Path) : m (Except FileError Unit) := do
  match ← makeDirectory path with
  | .ok () => return .ok ()
  | .error error => return if ← isDirectory path then .ok () else .error error

/-- Makes the first of the given directories, each the parent of the one before it. A parent is
made only if the directory cannot be made without it. -/
def ensureFirst : List Path → m (Except FileError Unit)
  | [] => return .error (.other "failed to create whole tree")
  | path :: parents => do
    if path.text.isEmpty then return .ok ()
    match ← makeDirectory path with
    | .ok () => return .ok ()
    | .error .notFound =>
      match ← ensureFirst parents with
      | .ok () => ensureDirectory path
      | .error error => return .error error
    | .error error => return if ← isDirectory path then .ok () else .error error

/-- Makes a directory with the directories above it. -/
def makeDirectories (path : Path) : m (Except FileError Unit) := ensureFirst path.ancestors

end JackToolchain.Files
