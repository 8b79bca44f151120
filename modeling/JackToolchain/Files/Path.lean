/-!
# Paths

A path is a text whose slashes separate its pieces. Empty pieces do not count, and neither do
pieces `.` except at the front of a path that does not start at the root. The operations keep
the text of every piece that they do not change, so a path is shown as it was given.
-/
namespace JackToolchain.Files

/-- A path as it was given. -/
structure Path where
  /-- Its text. -/
  text : String
deriving DecidableEq

/-- Cuts a text at its slashes, where `current` holds, in reverse, the characters of the piece
that has begun. -/
def piecesFrom (current : List Char) : List Char → List String
  | [] => [String.ofList current.reverse]
  | c :: rest =>
    if c = '/' then String.ofList current.reverse :: piecesFrom [] rest
    else piecesFrom (c :: current) rest

/-- Drops the pieces at the end of a path that do not count; the pieces are in reverse. -/
def dropTrailing (rooted : Bool) : List String → List String
  | [] => []
  | [piece] => if piece = "" ∨ (piece = "." ∧ rooted) then [] else [piece]
  | piece :: rest =>
    if piece = "" ∨ piece = "." then dropTrailing rooted rest else piece :: rest

/-- Cuts a file name before its last dot, unless nothing stands before the dot: the stem, and
what stands after the dot. -/
def splitName (name : String) : String × Option String :=
  let reversed := name.toList.reverse
  let stem := (reversed.dropWhile (· ≠ '.')).drop 1
  if stem.isEmpty then (name, none)
  else
    (String.ofList stem.reverse,
      some (String.ofList (reversed.takeWhile (· ≠ '.')).reverse))

namespace Path

/-- Whether a path starts at the root. -/
def isRooted (path : Path) : Bool := path.text.toList.head? = some '/'

/-- Whether a path ends in a slash. -/
def endsInSlash (path : Path) : Bool := path.text.toList.getLast? = some '/'

/-- The pieces of a path in order, without the root. -/
def pieces (path : Path) : List String :=
  let pieces := piecesFrom [] path.text.toList
  if path.isRooted then pieces.tail else pieces

/-- The pieces of a path in order, as it is walked to make a file. A slash at its end says that
the last name is a directory's: no file of that name is looked up, and the path stands for the
directory that the name would be in. -/
def piecesForFile (path : Path) : List String :=
  match path.endsInSlash, path.pieces.reverse.dropWhile (· = "") with
  | true, piece :: rest => ((if piece = ".." then ".." else ".") :: rest).reverse
  | _, _ => path.pieces

/-- The pieces of a path in reverse, from the last one that counts. -/
def reversed (path : Path) : List String := dropTrailing path.isRooted path.pieces.reverse

/-- The path with these pieces, which are in reverse. -/
def ofReversed (rooted : Bool) (reversed : List String) : Path :=
  ⟨(if rooted then "/" else "") ++ "/".intercalate reversed.reverse⟩

/-- The path without its last piece. -/
def parent? (path : Path) : Option Path :=
  match path.reversed with
  | [] => none
  | _ :: rest => some (.ofReversed path.isRooted (dropTrailing path.isRooted rest))

/-- The path, its parent, and so on, for at most `limit` parents. -/
def ancestorsUpTo : Nat → Path → List Path
  | 0, path => [path]
  | limit + 1, path =>
    path ::
      match path.parent? with
      | some parent => ancestorsUpTo limit parent
      | none => []

/-- The path, its parent, and so on up to the shortest. A parent is shorter than its path. -/
def ancestors (path : Path) : List Path := ancestorsUpTo path.text.length path

/-- The last piece of a path, if it is a name. -/
def fileName? (path : Path) : Option String :=
  path.reversed.head?.filter fun piece => piece ≠ "." && piece ≠ ".."

/-- The name of a file without its extension. -/
def stem? (path : Path) : Option String := path.fileName?.map fun name => (splitName name).1

/-- The extension of a file. -/
def extension? (path : Path) : Option String := path.fileName?.bind fun name => (splitName name).2

/-- Whether nothing stands after the last piece that counts. -/
def endsInPiece (path : Path) : Bool := path.pieces.getLast? = path.reversed.head?

/-- The path with another extension, or with none if it is empty. A path that ends in no name
stays as it is. The old extension is dropped first: a path that ends in two dots and an extension
then leads to a parent, so it ends in no name any more and gets no other extension. -/
def withExtension (path : Path) (extension : String) : Path :=
  match path.stem? with
  | none => path
  | some stem =>
    let name :=
      if stem = "." && path.endsInPiece then ".."
      else if extension.isEmpty then stem
      else stem ++ "." ++ extension
    .ofReversed path.isRooted (name :: path.reversed.tail)

/-- The path of `inner` seen from `path`; a path from the root stays as it is. -/
def join (path : Path) (inner : String) : Path :=
  if (Path.mk inner).isRooted then ⟨inner⟩
  else if path.text.isEmpty || path.endsInSlash then ⟨path.text ++ inner⟩
  else ⟨path.text ++ "/" ++ inner⟩

end Path

end JackToolchain.Files
