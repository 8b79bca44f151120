import JackToolchain.Files.FileSystem
import JackToolchain.Files.Node

/-!
# File trees

A file system that is a value: the directories and files below a working directory. The
directories above it exist too, but nothing in them is known, so a name looked up there is not
found. A path is walked piece by piece, as the system does it: every piece but the last must be a
directory, also in front of `..`. A name is too long when it is looked up, and a path as a whole
before its first piece is.
-/
namespace JackToolchain.Files

/-- The directories and files below the working directory. -/
structure FileTree where
  /-- What is in the working directory. -/
  entries : Entries

/-- A directory that a walk has come to. -/
structure Place where
  /-- What is in it. -/
  entries : Entries
  /-- The names that lead to it, from the last one to the first, each with what is in the
  directory that has the name. -/
  trail : List (String × Entries) := []

/-- Where a walk has come to. -/
inductive Walk where
  /-- A directory below the working directory, or the working directory itself. -/
  | inside (place : Place)
  /-- A directory above the working directory. -/
  | outside
  /-- A file with this name. -/
  | file (place : Place) (name : String) (content : ByteArray)
  /-- Nothing, but a node with this name can be made. -/
  | absent (place : Place) (name : String)
  /-- Nowhere. -/
  | lost (error : FileError)

namespace Place

/-- The largest number of bytes in a name. -/
def maxNameLength : Nat := 255

/-- Looks up a name in a directory. -/
def lookUp (place : Place) (name : String) : Walk :=
  if maxNameLength < name.utf8ByteSize then .lost .nameTooLong
  else
    match place.entries.lookup name with
    | some (.directory entries) =>
      .inside { entries, trail := (name, place.entries) :: place.trail }
    | some (.file content) => .file place name content
    | none => .absent place name

/-- The directory that a directory is in. -/
def parent (place : Place) : Walk :=
  match place.trail with
  | [] => .outside
  | (_, entries) :: trail => .inside { entries, trail }

/-- The whole tree with a node in a directory, in place of any that has its name. -/
def put (place : Place) (name : String) (node : Node) : FileTree :=
  ⟨place.trail.foldl (fun inner (name, entries) => entries.put name (.directory inner))
    (place.entries.put name node)⟩

end Place

/-- Walks on to a piece of a path. -/
def Walk.step (walk : Walk) (piece : String) : Walk :=
  if piece = "" then walk
  else
    match walk with
    | .inside place =>
      if piece = "." then walk
      else if piece = ".." then place.parent
      else place.lookUp piece
    | .outside =>
      if piece = "." || piece = ".." then .outside
      else if Place.maxNameLength < piece.utf8ByteSize then .lost .nameTooLong
      else .lost .notFound
    | .file _ _ _ => .lost .notADirectory
    | .absent _ _ => .lost .notFound
    | .lost error => .lost error

namespace FileTree

/-- The tree of an empty working directory. -/
def empty : FileTree := ⟨[]⟩

/-- The tree with a directory that these names lead to. -/
def addDirectory (tree : FileTree) (names : List String) : FileTree :=
  ⟨tree.entries.addDirectory names⟩

/-- The tree with a file that these names lead to. -/
def addFile (tree : FileTree) (names : List String) (content : ByteArray) : FileTree :=
  ⟨tree.entries.addFile content names⟩

/-- All files with the names that lead to them. -/
def files (tree : FileTree) : List (List String × ByteArray) := Entries.files [] tree.entries

/-- The content of the file that these names lead to. -/
def file? (tree : FileTree) (names : List String) : Option ByteArray := tree.entries.file? names

/-- The largest number of bytes in a path. -/
def maxPathLength : Nat := 4095

/-- Walks along pieces of a path, from where it starts. The empty path leads nowhere. -/
def walkAlong (tree : FileTree) (path : Path) (pieces : List String) : Walk :=
  if '\x00' ∈ path.text.toList then .lost .zeroInName
  else if path.text.isEmpty then .lost .notFound
  else if maxPathLength < path.text.utf8ByteSize then .lost .nameTooLong
  else
    let start := if path.isRooted then Walk.outside else .inside { entries := tree.entries }
    pieces.foldl Walk.step start

/-- Walks along a path. -/
def walk (tree : FileTree) (path : Path) : Walk := tree.walkAlong path path.pieces

/-- What a path leads to. With a slash at its end it leads to no file. -/
def find (tree : FileTree) (path : Path) : Walk :=
  match tree.walk path with
  | .file place name content =>
    if path.endsInSlash then .lost .notADirectory else .file place name content
  | other => other

/-- Whether a path leads to a directory. -/
def isDirectory (tree : FileTree) (path : Path) : Bool :=
  match tree.find path with
  | .inside _ | .outside => true
  | _ => false

/-- Whether a path leads to a file. -/
def isFile (tree : FileTree) (path : Path) : Bool :=
  match tree.find path with
  | .file _ _ _ => true
  | _ => false

/-- The names in a directory. -/
def entryNames (tree : FileTree) (path : Path) : Except FileError (List String) :=
  match tree.find path with
  | .inside place => .ok (place.entries.map Prod.fst)
  | .outside => .ok []
  | .file _ _ _ => .error .notADirectory
  | .absent _ _ => .error .notFound
  | .lost error => .error error

/-- The text of a file. -/
def readText (tree : FileTree) (path : Path) : Except FileError String :=
  match tree.find path with
  | .file _ _ content =>
    match String.fromUTF8? content with
    | some text => .ok text
    | none => .error .invalidText
  | .inside _ | .outside => .error .isADirectory
  | .absent _ _ => .error .notFound
  | .lost error => .error error

/-- The tree with one more directory. -/
def makeDirectory (tree : FileTree) (path : Path) : Except FileError FileTree :=
  match tree.walk path with
  | .absent place name => .ok (place.put name (.directory []))
  | .inside _ | .outside | .file _ _ _ => .error .alreadyExists
  | .lost error => .error error

/-- The tree with a text in a file, which is made if it is not there. A path with a slash at its
end names no file. -/
def writeText (tree : FileTree) (path : Path) (text : String) : Except FileError FileTree :=
  match tree.walkAlong path path.piecesForFile with
  | .file place name _ | .absent place name => .ok (place.put name (.file text.toUTF8))
  | .inside _ | .outside => .error .isADirectory
  | .lost error => .error error

/-- Changes the tree, unless that fails. -/
def update (change : FileTree → Except FileError FileTree) :
    StateM FileTree (Except FileError Unit) := do
  match change (← get) with
  | .ok tree =>
    set tree
    return .ok ()
  | .error error => return .error error

end FileTree

instance : FileSystem (StateM FileTree) where
  isDirectory path := return (← get).isDirectory path
  isFile path := return (← get).isFile path
  entryNames path := return (← get).entryNames path
  readText path := return (← get).readText path
  makeDirectory path := FileTree.update fun tree => tree.makeDirectory path
  writeText path text := FileTree.update fun tree => tree.writeText path text

end JackToolchain.Files
