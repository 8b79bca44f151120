import JackToolchain.Fault
import JackToolchain.Jack.Tree
import Std.Data.HashMap

/-!
# Scopes

A symbol table binds the names of one scope. The names of one storage are numbered from zero in
the order of their declarations, and no name is bound twice. A class has a table of its
variables; each of its subroutines has a table of its parameters and locals, which hides the
class variables of the same names.
-/
namespace JackToolchain.Jack

/-- The storages of variables. -/
inductive Storage where
  | static | field | argument | «local»
deriving DecidableEq

/-- The segment that holds the variables of a storage; fields are in the current object. -/
def Storage.segment : Storage → Vm.Segment
  | .static => .static
  | .field => .this
  | .argument => .argument
  | .local => .local

/-- The storage of a class variable. -/
def ClassStorage.storage : ClassStorage → Storage
  | .static => .static
  | .field => .field

/-- What a scope knows of a name. -/
structure Entry where
  /-- The type of the variable. -/
  type : JackType
  /-- Its storage. -/
  storage : Storage
  /-- Its number among the names of its storage. -/
  ordinal : Nat
deriving DecidableEq

/-- The number of names of each storage. -/
structure Counts where
  /-- Static variables. -/
  static : Nat := 0
  /-- Fields. -/
  field : Nat := 0
  /-- Arguments. -/
  argument : Nat := 0
  /-- Local variables. -/
  «local» : Nat := 0
deriving DecidableEq

namespace Counts

/-- The number of names of a storage. -/
def get (counts : Counts) : Storage → Nat
  | .static => counts.static
  | .field => counts.field
  | .argument => counts.argument
  | .local => counts.local

/-- The counts with one name more of a storage. -/
def increment (counts : Counts) : Storage → Counts
  | .static => { counts with static := counts.static + 1 }
  | .field => { counts with field := counts.field + 1 }
  | .argument => { counts with argument := counts.argument + 1 }
  | .local => { counts with «local» := counts.local + 1 }

end Counts

/-- The names of one scope. -/
structure SymbolTable where
  /-- What messages call the scope. -/
  scope : String
  /-- What is known of each name. -/
  entries : Std.HashMap String Entry := ∅
  /-- The number of names of each storage. -/
  counts : Counts := {}

namespace SymbolTable

/-- What the scope knows of a name. -/
def get? (table : SymbolTable) (name : String) : Option Entry := table.entries[name]?

/-- Binds a new name to the next number of its storage. -/
def declare (table : SymbolTable) (name : Name) (type : JackType) (storage : Storage) :
    Outcome SymbolTable :=
  if table.entries.contains name.node then .error ⟨.duplicate table.scope name.node, name.span⟩
  else
    .ok { table with
      entries := table.entries.insert name.node ⟨type, storage, table.counts.get storage⟩
      counts := table.counts.increment storage }

/-- Binds the variables of a declaration list in order. -/
def declareAll (table : SymbolTable) (storage : Storage) (declared : List Variable) :
    Outcome SymbolTable :=
  declared.foldlM (fun table item => table.declare item.name item.type storage) table

end SymbolTable

/-- What the subroutines of a class know of their class. -/
structure ClassScope where
  /-- The name of the class. -/
  name : String
  /-- The class variables. -/
  vars : SymbolTable
  /-- The kinds of the subroutines, by their names within the class. -/
  subroutines : Std.HashMap String SubroutineKind

namespace ClassScope

/-- What messages call the scope of a class. -/
def title (className : String) : String := "class " ++ className

/-- The name of a subroutine outside its class. -/
def qualify (className name : String) : String := className ++ "." ++ name

/-- Adds a subroutine; its name must be new in the class. -/
def addSubroutine (className : String) (known : Std.HashMap String SubroutineKind)
    (subroutine : Subroutine) : Outcome (Std.HashMap String SubroutineKind) :=
  let name := subroutine.name
  if known.contains name.node then .error ⟨.duplicate (title className) name.node, name.span⟩
  else .ok (known.insert name.node subroutine.kind)

/-- The scope of a class. -/
def ofClass (cls : Class) : Outcome ClassScope := do
  let name := cls.name.node
  let vars ← cls.vars.foldlM
    (fun table item =>
      table.declare item.name item.type item.storage.storage)
    ({ scope := title name } : SymbolTable)
  let subroutines ← cls.subroutines.foldlM (addSubroutine name) ∅
  return { name, vars, subroutines }

/-- The number of words in an object of the class. -/
def fieldCount (scope : ClassScope) : Nat := scope.vars.counts.field

end ClassScope

/-- The scopes that a statement sees. -/
structure Scope where
  /-- Its class. -/
  cls : ClassScope
  /-- Its subroutine. -/
  routine : SymbolTable

namespace Scope

/-- The name of the receiver of a method, which is its first argument. -/
def receiverName : String := "this"

/-- The scope inside a subroutine of a class. -/
def ofSubroutine (cls : ClassScope) (subroutine : Subroutine) : Outcome Scope := do
  let empty : SymbolTable := { scope := ClassScope.qualify cls.name subroutine.name.node }
  let receiver ←
    if subroutine.kind = .method then
      empty.declare ⟨receiverName, subroutine.name.span⟩ (.object cls.name) .argument
    else pure empty
  let params ← receiver.declareAll .argument subroutine.params
  let routine ← params.declareAll .local subroutine.locals
  return { cls, routine }

/-- What is known of a name: the subroutine is asked before the class. -/
def lookup? (scope : Scope) (name : String) : Option Entry :=
  (scope.routine.get? name).or (scope.cls.vars.get? name)

/-- What is known of a name that must be declared. -/
def resolve (scope : Scope) (name : Name) : Outcome Entry :=
  match scope.lookup? name.node with
  | some entry => .ok entry
  | none => .error ⟨.undeclaredVariable scope.routine.scope name.node, name.span⟩

end Scope

end JackToolchain.Jack
