import JackToolchain.Files.Path

/-!
# Directories and files

A directory is a list of names with what each leads to: a directory again or a file. No name
stands twice in it, because putting a node under a name takes away the one that was there.
-/
namespace JackToolchain.Files

/-- What a name in a directory leads to. -/
inductive Node where
  | directory (entries : List (String × Node))
  | file (content : ByteArray)

/-- The names in a directory with what they lead to. -/
abbrev Entries := List (String × Node)

mutual

/-- The files in a node that the given names, which are in reverse, lead to. -/
def Node.files (names : List String) : Node → List (List String × ByteArray)
  | .directory entries => Entries.files names entries
  | .file content => [(names.reverse, content)]

/-- The files in a directory that the given names, which are in reverse, lead to. -/
def Entries.files (names : List String) : List (String × Node) → List (List String × ByteArray)
  | [] => []
  | (name, node) :: rest => node.files (name :: names) ++ Entries.files names rest

end

namespace Entries

/-- The entries with a node in place of any that has its name. -/
def put (entries : Entries) (name : String) (node : Node) : Entries :=
  (name, node) :: entries.filter fun (known, _) => known ≠ name

/-- The entries of the directory with this name; without such a directory there are none. -/
def within (entries : Entries) (name : String) : Entries :=
  match entries.lookup name with
  | some (.directory inner) => inner
  | _ => []

/-- The entries with a directory below them, and with the directories on the way to it. -/
def addDirectory (entries : Entries) : List String → Entries
  | [] => entries
  | name :: rest =>
    entries.put name (.directory (addDirectory (entries.within name) rest))

/-- The entries with a file below them, and with the directories on the way to it. -/
def addFile (entries : Entries) (content : ByteArray) : List String → Entries
  | [] => entries
  | [name] => entries.put name (.file content)
  | name :: rest =>
    entries.put name (.directory (addFile (entries.within name) content rest))

/-- The content of the file that these names lead to. -/
def file? (entries : Entries) : List String → Option ByteArray
  | [] => none
  | name :: rest =>
    match entries.lookup name, rest with
    | some (.file content), [] => some content
    | some (.directory inner), rest => file? inner rest
    | _, _ => none

end Entries

end JackToolchain.Files
