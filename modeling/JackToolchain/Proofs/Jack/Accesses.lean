import JackToolchain.Proofs.Jack.Jumps
import JackToolchain.Proofs.Jack.Traces

/-!
# Accesses to variables

Where the commands of a subroutine read and write variables. Each variable that the subroutine can
name has a place of its own. The commands access these places in the order in which the statements
access the variables, and so they do not leave the part of a segment that the declarations take. The
prologue of a method reads the receiver, which is the first argument.
-/
namespace JackToolchain

namespace Vm

/-- The segment and the index that a command reads or writes. -/
def Command.place? : Command → Option (Segment × Nat)
  | .push segment index | .pop segment index => some (segment, index)
  | _ => none

/-- A command stays in segments of so many words, as far as their sizes are given. -/
def Command.StaysIn (extent? : Segment → Option Nat) (command : Command) : Prop :=
  ∀ segment index extent, command.place? = some (segment, index) → extent? segment = some extent →
    index < extent

/-- A command that reads or writes a segment that holds variables accesses it. -/
theorem Command.exists_access {command : Command} {segment : Segment} {index : Nat}
    (place : command.place? = some (segment, index)) (holds : segment.isVariable = true) :
    ∃ access, command.access? = some access ∧ access.target = (segment, index) := by
  cases command with
  | push own number =>
    obtain ⟨rfl, rfl⟩ := Prod.mk.inj (Option.some.inj place)
    exact ⟨_, if_pos holds, rfl⟩
  | pop own number =>
    obtain ⟨rfl, rfl⟩ := Prod.mk.inj (Option.some.inj place)
    exact ⟨_, if_pos holds, rfl⟩
  | _ => contradiction

end Vm

namespace Jack

open Vm (Command RuntimeNames Segment)
open Vm.Routine (functionCode?)

/-- The number of variables that a class and one of its subroutines have in a segment: a method has
its receiver besides its parameters. -/
def Subroutine.extent? (cls : Class) (subroutine : Subroutine) : Segment → Option Nat
  | .local => some subroutine.locals.length
  | .argument => some (subroutine.params.length + if subroutine.kind = .method then 1 else 0)
  | .this => some (cls.vars.countP fun item => item.storage = .field)
  | .static => some (cls.vars.countP fun item => item.storage = .static)
  | .constant | .that | .pointer | .temp => none

/-- The variables that a subroutine can name: its own ones hide those of its class. -/
def Subroutine.visible (cls : Class) (subroutine : Subroutine) : List Declaration :=
  let own := subroutine.declarations cls.name.node
  own ++ cls.declarations.filter fun item => item.name ∉ own.map Declaration.name

/-- A scope has a place for each variable that a subroutine can name, and every kind of access to a
variable is compiled to its place. -/
structure Scope.Allocates (scope : Scope) (cls : Class) (subroutine : Subroutine) : Prop where
  /-- Every variable is known with its type and its storage. -/
  resolves : ∀ item ∈ subroutine.visible cls,
    ∃ index, scope.lookup? item.name = some ⟨item.type, item.storage, index⟩
  /-- No two variables have one place. -/
  distinct : ((subroutine.visible cls).map fun item => scope.place? item.name).Nodup
  /-- The receiver of a method is the first argument. -/
  receiver : subroutine.kind = .method →
    scope.place? Scope.receiverName = some (.argument, 0)
  /-- The parameters are the arguments behind it. -/
  params : ∀ index item, subroutine.params[index]? = some item →
    scope.place? item.name.node =
      some (.argument, index + if subroutine.kind = .method then 1 else 0)
  /-- A variable is read at its place. -/
  reads : ∀ runtime name span code, (Expr.variable name span).commands runtime scope = .ok code →
    ∃ segment index, scope.place? name = some (segment, index) ∧ code = [.push segment index]
  /-- A variable is written at its place. -/
  writes : ∀ runtime number target value span code next,
    (Stmt.assign target value span).commands runtime scope number = .ok (code, next) →
    ∃ segment index front, scope.place? target.node = some (segment, index) ∧
      value.commands runtime scope = .ok front ∧ code = front ++ [.pop segment index]
  /-- The array of an element that is read is read at its place, behind the index. -/
  readsArray : ∀ runtime array index span code,
    (Expr.element array index span).commands runtime scope = .ok code →
    ∃ segment ordinal front, scope.place? array.node = some (segment, ordinal) ∧
      index.commands runtime scope = .ok front ∧
      code = front ++ [.push segment ordinal, .operate .add, .pop .pointer 1, .push .that 0]
  /-- The array of an element that is written is read at its place, in front of the index. -/
  writesArray : ∀ runtime number array index value span code next,
    (Stmt.assignElement array index value span).commands runtime scope number = .ok (code, next) →
    ∃ segment ordinal indexCode valueCode, scope.place? array.node = some (segment, ordinal) ∧
      index.commands runtime scope = .ok indexCode ∧
      value.commands runtime scope = .ok valueCode ∧
      code = [.push segment ordinal] ++ indexCode ++ [.operate .add] ++ valueCode ++
        [.pop .temp 0, .pop .pointer 1, .push .temp 0, .pop .that 0]
  /-- A receiver that is a variable is read at its place, in front of the arguments. -/
  readsReceiver : ∀ runtime receiver name args span code segment index,
    scope.place? receiver.node = some (segment, index) →
    (Expr.call (some receiver) name args span).commands runtime scope = .ok code →
    ∃ argsCode method, argumentCommands runtime scope args = .ok argsCode ∧
      code = [.push segment index] ++ argsCode ++ [.call method (args.length + 1)]
  /-- The receiver of a call whose result is dropped is read like that of any other call. -/
  statementReceiver : ∀ runtime number receiver name args span code next segment index,
    scope.place? receiver.node = some (segment, index) →
    (Stmt.call (some receiver) name args span).commands runtime scope number = .ok (code, next) →
    ∃ argsCode method, argumentCommands runtime scope args = .ok argsCode ∧
      code = [.push segment index] ++ argsCode ++ [.call method (args.length + 1), .pop .temp 0]

section Declarations

variable {cls : Class} {subroutine : Subroutine} {className name : String} {entry : Entry}

/-- Storages have segments of their own. -/
theorem Storage.segment_inj {left right : Storage} (same : left.segment = right.segment) :
    left = right := by
  cases left <;> cases right <;> first | rfl | contradiction

/-- A variable of a subroutine is an argument or a local variable, and its number is below their
number. -/
theorem of_declared?_subroutine
    (known : declared? (subroutine.declarations className) name = some entry) :
    (entry.storage = .argument ∨ entry.storage = .local) ∧
      ∃ extent, subroutine.extent? cls entry.storage.segment = some extent ∧
        entry.ordinal < extent := by
  have below := (of_declared? known).1
  rw [declaredCount_subroutine] at below
  cases storage : entry.storage with
  | static =>
    rw [storage] at below
    exact absurd below (Nat.not_lt_zero _)
  | field =>
    rw [storage] at below
    exact absurd below (Nat.not_lt_zero _)
  | argument =>
    rw [storage] at below
    exact ⟨.inl rfl, _, rfl, Nat.add_comm _ _ ▸ below⟩
  | «local» =>
    rw [storage] at below
    exact ⟨.inr rfl, _, rfl, below⟩

/-- A variable of a class is static or a field, and its number is below their number. -/
theorem of_declared?_class (known : declared? cls.declarations name = some entry) :
    (entry.storage = .static ∨ entry.storage = .field) ∧
      ∃ extent, subroutine.extent? cls entry.storage.segment = some extent ∧
        entry.ordinal < extent := by
  have below := (of_declared? known).1
  rw [declaredCount_class] at below
  cases storage : entry.storage with
  | static =>
    rw [storage] at below
    exact ⟨.inl rfl, _, rfl, below⟩
  | field =>
    rw [storage] at below
    exact ⟨.inr rfl, _, rfl, below⟩
  | argument =>
    rw [storage] at below
    exact absurd below (Nat.not_lt_zero _)
  | «local» =>
    rw [storage] at below
    exact absurd below (Nat.not_lt_zero _)

end Declarations

/-! ## Scopes -/

section Scopes

variable {runtime : RuntimeNames} {cls : Class} {known : ClassScope} {subroutine : Subroutine}
variable {scope : Scope} {name other : String} {entry left right : Entry}

/-- What is known of a name in a subroutine is what the subroutine or else its class declares. -/
theorem lookup?_of_made (clsMade : ClassScope.ofClass cls = .ok known)
    (scopeMade : Scope.ofSubroutine known subroutine = .ok scope) (name : String) :
    scope.lookup? name =
      (declared? (subroutine.declarations cls.name.node) name).or
        (declared? cls.declarations name) := by
  obtain ⟨sameName, vars, -⟩ := knows_of_ofClass clsMade
  obtain ⟨rfl, routine⟩ := knows_of_ofSubroutine scopeMade
  rw [Scope.lookup?, routine.get, vars.get, sameName]

/-- The number of a known variable is below the number of variables in its segment. -/
theorem below_extent (clsMade : ClassScope.ofClass cls = .ok known)
    (scopeMade : Scope.ofSubroutine known subroutine = .ok scope)
    (found : scope.lookup? name = some entry) :
    ∃ extent, subroutine.extent? cls entry.storage.segment = some extent ∧
      entry.ordinal < extent := by
  rw [lookup?_of_made clsMade scopeMade, Option.or_eq_some_iff] at found
  rcases found with own | ⟨-, inherited⟩
  · exact (of_declared?_subroutine own).2
  · exact (of_declared?_class inherited).2

/-- Two names of a subroutine do not have one place. -/
theorem place_inj (clsMade : ClassScope.ofClass cls = .ok known)
    (scopeMade : Scope.ofSubroutine known subroutine = .ok scope)
    (found : scope.lookup? name = some left) (otherFound : scope.lookup? other = some right)
    (same : left.place = right.place) : name = other := by
  obtain ⟨segment, ordinal⟩ := Prod.mk.inj same
  have storage := Storage.segment_inj segment
  rw [lookup?_of_made clsMade scopeMade, Option.or_eq_some_iff] at found otherFound
  rcases found with own | ⟨-, inherited⟩ <;> rcases otherFound with otherOwn | ⟨-, otherInherited⟩
  · exact declared?_inj own otherOwn storage ordinal
  · have first := (@of_declared?_subroutine cls _ _ _ _ own).1
    have second := (@of_declared?_class _ subroutine _ _ otherInherited).1
    grind
  · have first := (@of_declared?_class _ subroutine _ _ inherited).1
    have second := (@of_declared?_subroutine cls _ _ _ _ otherOwn).1
    grind
  · exact declared?_inj inherited otherInherited storage ordinal

/-- Every variable that a subroutine can name is known with its type and its storage. -/
theorem resolves_of_made (clsMade : ClassScope.ofClass cls = .ok known)
    (scopeMade : Scope.ofSubroutine known subroutine = .ok scope) {item : Declaration}
    (member : item ∈ subroutine.visible cls) :
    ∃ index, scope.lookup? item.name = some ⟨item.type, item.storage, index⟩ := by
  have sameName := (knows_of_ofClass clsMade).1
  have distinct := nodup_of_ofSubroutine scopeMade
  rw [sameName] at distinct
  rw [lookup?_of_made clsMade scopeMade]
  rcases List.mem_append.mp member with own | inherited
  · obtain ⟨index, found⟩ := declared?_of_mem distinct own
    exact ⟨index, by rw [found, Option.some_or]⟩
  · obtain ⟨inside, notHidden⟩ := List.mem_filter.mp inherited
    obtain ⟨index, found⟩ := declared?_of_mem (nodup_of_ofClass clsMade) inside
    exact ⟨index, by rw [declared?_eq_none (of_decide_eq_true notHidden), Option.none_or, found]⟩

/-- The variables that a subroutine can name have different names. -/
theorem nodup_visible (clsMade : ClassScope.ofClass cls = .ok known)
    (scopeMade : Scope.ofSubroutine known subroutine = .ok scope) :
    ((subroutine.visible cls).map Declaration.name).Nodup := by
  have distinct := nodup_of_ofSubroutine scopeMade
  rw [(knows_of_ofClass clsMade).1] at distinct
  rw [Subroutine.visible, List.map_append]
  refine List.nodup_append.mpr ⟨distinct, ?_, fun own member inherited there same => ?_⟩
  · exact (nodup_of_ofClass clsMade).sublist (List.filter_sublist.map _)
  · obtain ⟨item, kept, rfl⟩ := List.mem_map.mp there
    exact of_decide_eq_true (List.mem_filter.mp kept).2 (same ▸ member)

/-- A parameter is declared behind the receiver of a method and the parameters in front of it. -/
theorem declarations_at_param {index : Nat} {item : Variable} (className : String)
    (place : subroutine.params[index]? = some item) :
    ∃ front back, subroutine.declarations className =
        front ++ ⟨item.name.node, item.type, .argument⟩ :: back ∧
      declaredCount .argument front = index + if subroutine.kind = .method then 1 else 0 := by
  obtain ⟨small, rfl⟩ := List.getElem?_eq_some_iff.mp place
  have split : subroutine.params =
      subroutine.params.take index ++ subroutine.params[index] ::
        subroutine.params.drop (index + 1) := by
    rw [← List.drop_eq_getElem_cons small, List.take_append_drop]
  have before : (subroutine.params.take index).length = index :=
    List.length_take_of_le (Nat.le_of_lt small)
  generalize subroutine.params[index] = item at split
  generalize subroutine.params.take index = earlier at split before
  generalize subroutine.params.drop (index + 1) = later at split
  refine ⟨(if subroutine.kind = .method then
      [⟨Scope.receiverName, .object className, .argument⟩] else []) ++
        earlier.map (fun item => ⟨item.name.node, item.type, .argument⟩),
    later.map (fun item => ⟨item.name.node, item.type, .argument⟩) ++
      subroutine.locals.map (fun item => ⟨item.name.node, item.type, .local⟩), ?_, ?_⟩
  · simp [Subroutine.declarations, split]
  · subst before
    rw [declaredCount, List.countP_append, List.countP_map]
    split <;> simp [Function.comp_def, Nat.add_comm]

/-- The parameters of a subroutine are its first arguments, behind the receiver of a method. -/
theorem place?_param (clsMade : ClassScope.ofClass cls = .ok known)
    (scopeMade : Scope.ofSubroutine known subroutine = .ok scope) {index : Nat} {item : Variable}
    (place : subroutine.params[index]? = some item) :
    scope.place? item.name.node =
      some (.argument, index + if subroutine.kind = .method then 1 else 0) := by
  obtain ⟨front, back, split, count⟩ := declarations_at_param cls.name.node place
  have distinct := nodup_of_ofSubroutine scopeMade
  rw [(knows_of_ofClass clsMade).1, split] at distinct
  have found := declared?_of_nodup distinct
  dsimp only at found
  rw [Scope.place?, lookup?_of_made clsMade scopeMade, split, found, Option.some_or,
    Option.map_some, count]
  rfl

/-- A receiver that is a variable is pushed from its place, in front of the arguments. -/
theorem emitted_receiver {receiver called : Name} {args : List Expr} {span : Span}
    {segment : Segment} {index : Nat} {code : List Command}
    (place : scope.place? receiver.node = some (segment, index))
    (made : (Expr.call (some receiver) called args span).commands runtime scope = .ok code) :
    ∃ argsCode method, argumentCommands runtime scope args = .ok argsCode ∧
      code = [.push segment index] ++ argsCode ++ [.call method (args.length + 1)] := by
  obtain ⟨entry, known, same⟩ := Option.map_eq_some_iff.mp place
  obtain ⟨rfl, rfl⟩ := Prod.mk.inj same
  obtain ⟨callee, argsCode, calleeMade, argsMade, rfl⟩ := emitted_call made
  rw [Scope.callee, known] at calleeMade
  obtain rfl := Except.ok.inj calleeMade
  exact ⟨argsCode, _, argsMade, rfl⟩

/-- A scope has a place for each variable that its subroutine can name. -/
theorem allocates_of_made (clsMade : ClassScope.ofClass cls = .ok known)
    (scopeMade : Scope.ofSubroutine known subroutine = .ok scope) :
    scope.Allocates cls subroutine where
  resolves := fun item member => resolves_of_made clsMade scopeMade member
  distinct := by
    have apart : ((subroutine.visible cls).map Declaration.name |>.map scope.place?).Nodup := by
      refine List.Nodup.map_on (fun name member other otherMember same => ?_)
        (nodup_visible clsMade scopeMade)
      obtain ⟨item, inside, rfl⟩ := List.mem_map.mp member
      obtain ⟨another, there, rfl⟩ := List.mem_map.mp otherMember
      obtain ⟨index, found⟩ := resolves_of_made clsMade scopeMade inside
      obtain ⟨otherIndex, otherFound⟩ := resolves_of_made clsMade scopeMade there
      rw [Scope.place?, Scope.place?, found, otherFound] at same
      exact place_inj clsMade scopeMade found otherFound (Option.some.inj same)
    rwa [List.map_map] at apart
  receiver := by
    intro isMethod
    rw [Scope.place?, lookup?_of_made clsMade scopeMade, Subroutine.declarations, if_pos isMethod]
    rfl
  params := fun index item place => place?_param clsMade scopeMade place
  reads := by
    intro runtime name span code made
    obtain ⟨entry, resolved, rfl⟩ := emitted_variable made
    exact ⟨_, _, place?_of_lookup? (lookup?_of_resolve resolved), rfl⟩
  writes := by
    intro runtime number target value span code next made
    obtain ⟨valueCode, entry, valueMade, resolved, rfl, -⟩ := emitted_assign made
    exact ⟨_, _, _, place?_of_lookup? (lookup?_of_resolve resolved), valueMade, rfl⟩
  readsArray := by
    intro runtime array index span code made
    obtain ⟨indexCode, entry, indexMade, resolved, rfl⟩ := emitted_element made
    exact ⟨_, _, _, place?_of_lookup? (lookup?_of_resolve resolved), indexMade, rfl⟩
  writesArray := by
    intro runtime number array index value span code next made
    obtain ⟨entry, indexCode, valueCode, resolved, indexMade, valueMade, rfl, -⟩ :=
      emitted_assignElement made
    exact ⟨_, _, _, _, place?_of_lookup? (lookup?_of_resolve resolved), indexMade, valueMade, rfl⟩
  readsReceiver := fun runtime receiver name args span code segment index place made =>
    emitted_receiver place made
  statementReceiver := by
    intro runtime number receiver name args span code next segment index place made
    obtain ⟨callCode, callMade, rfl, -⟩ := emitted_callStatement made
    obtain ⟨argsCode, method, argsMade, rfl⟩ := emitted_receiver place callMade
    exact ⟨argsCode, method, argsMade, List.append_assoc ..⟩

end Scopes

/-! ## Commands -/

section Commands

variable {runtime : RuntimeNames} {cls : Class} {known : ClassScope} {subroutine : Subroutine}
variable {scope : Scope} {command : Command} {names : List (Access String)} {code : List Command}

/-- The prologue of a method reads its receiver, and no other prologue accesses a variable. -/
theorem performs_prologue (clsMade : ClassScope.ofClass cls = .ok known)
    (scopeMade : Scope.ofSubroutine known subroutine = .ok scope) :
    Performs scope (if subroutine.kind = .method then [.read Scope.receiverName] else [])
      (prologue runtime known subroutine.kind) := by
  have receiver := (allocates_of_made clsMade scopeMade).receiver
  cases kind : subroutine.kind with
  | constructor => exact performs_free rfl
  | function => exact performs_free rfl
  | method =>
    have first : Performs scope [.read Scope.receiverName] [.push .argument 0] :=
      performs_one rfl (congrArg (Option.map Access.read) (receiver kind))
    exact first.before rfl

/-- The commands of a subroutine behind its entry perform its accesses. -/
theorem performs_of_subroutine {number next : Nat} {statements : List Command}
    (clsMade : ClassScope.ofClass cls = .ok known)
    (scopeMade : Scope.ofSubroutine known subroutine = .ok scope)
    (bodyMade : bodyCommands runtime scope number subroutine.body = .ok (statements, next)) :
    Performs scope subroutine.accesses (prologue runtime known subroutine.kind ++ statements) :=
  (performs_prologue clsMade scopeMade).append (performs_of_body subroutine.body bodyMade)

/-- A segment of a given size holds variables. -/
theorem isVariable_of_extent? {segment : Segment} {extent : Nat}
    (size : subroutine.extent? cls segment = some extent) : segment.isVariable = true := by
  cases segment <;> first | rfl | contradiction

/-- Commands that perform accesses to names stay where the variables are. -/
theorem Performs.staysIn (performs : Performs scope names code)
    (clsMade : ClassScope.ofClass cls = .ok known)
    (scopeMade : Scope.ofSubroutine known subroutine = .ok scope) :
    ∀ command ∈ code, command.StaysIn (subroutine.extent? cls) := by
  intro command member segment index extent place size
  obtain ⟨access, own, target⟩ := Command.exists_access place (isVariable_of_extent? size)
  obtain ⟨name, found⟩ := performs.exists_name (List.mem_filterMap.mpr ⟨command, member, own⟩)
  rw [target] at found
  obtain ⟨entry, looked, same⟩ := Option.map_eq_some_iff.mp found
  obtain ⟨rfl, rfl⟩ := Prod.mk.inj same
  obtain ⟨other, given, below⟩ := below_extent clsMade scopeMade looked
  obtain rfl := Option.some.inj (given.symm.trans size)
  exact below

/-- A compiled subroutine is found under its name, with the number of its local variables. Its scope
has a place for each variable that it can name. Its commands access, in order, the places of the
variables that the subroutine accesses, and they stay where these variables are. -/
theorem accesses_of_commands {program : List Command} (made : cls.commands runtime = .ok program)
    (member : subroutine ∈ cls.subroutines) :
    ∃ known scope number next statements, ClassScope.ofClass cls = .ok known ∧
      Scope.ofSubroutine known subroutine = .ok scope ∧
      bodyCommands runtime scope number subroutine.body = .ok (statements, next) ∧
      functionCode? program (ClassScope.qualify cls.name.node subroutine.name.node) =
        some (.function (ClassScope.qualify cls.name.node subroutine.name.node)
          subroutine.locals.length :: (prologue runtime known subroutine.kind ++ statements)) ∧
      scope.Allocates cls subroutine ∧
      Performs scope subroutine.accesses (prologue runtime known subroutine.kind ++ statements) ∧
      ∀ command ∈ prologue runtime known subroutine.kind ++ statements,
        command.StaysIn (subroutine.extent? cls) := by
  obtain ⟨known, clsMade, subroutinesMade⟩ := bind_eq_ok.mp made
  have sameName := (knows_of_ofClass clsMade).1
  obtain ⟨code, number, next, codeMade, found⟩ :=
    functionCode?_of_mem subroutinesMade (distinct_of_ofClass clsMade) member
  obtain ⟨scope, statements, scopeMade, bodyMade, rfl⟩ := emitted_subroutine codeMade
  have locals : scope.routine.counts.local = subroutine.locals.length := by
    have count := (knows_of_ofSubroutine scopeMade).2.count .local
    rwa [declaredCount_subroutine] at count
  rw [sameName, locals] at found
  have performs := performs_of_subroutine clsMade scopeMade bodyMade
  exact ⟨known, scope, number, next, statements, clsMade, scopeMade, bodyMade, found,
    allocates_of_made clsMade scopeMade, performs, performs.staysIn clsMade scopeMade⟩

/-- A method whose parameter hides a field: it reads and writes an array, and it calls a method on a
static variable. -/
def putting : Subroutine where
  kind := .method
  result := .int
  name := ⟨"put", .nowhere⟩
  params := [⟨.int, ⟨"at", .nowhere⟩⟩]
  locals := []
  body :=
    [.assignElement ⟨"items", .nowhere⟩ (.variable "at" .nowhere)
        (.element ⟨"items", .nowhere⟩ (.integer 0 .nowhere) .nowhere) .nowhere,
      .call (some ⟨"next", .nowhere⟩) ⟨"put", .nowhere⟩ [.variable "at" .nowhere] .nowhere,
      .leave none .nowhere]

/-- A class with an array, a field that its method hides and a static variable of its own type. -/
def shelf : Class where
  name := ⟨"Shelf", .nowhere⟩
  vars := [⟨.field, .int, ⟨"at", .nowhere⟩⟩, ⟨.field, .object "Array", ⟨"items", .nowhere⟩⟩,
    ⟨.static, .object "Shelf", ⟨"next", .nowhere⟩⟩]
  subroutines := [putting]

/-- The commands of the method behind its entry. -/
def puttingCode : List Command :=
  [.push .argument 0, .pop .pointer 0,
    .push .this 1, .push .argument 1, .operate .add, .push .constant 0, .push .this 1, .operate .add,
    .pop .pointer 1, .push .that 0, .pop .temp 0, .pop .pointer 1, .push .temp 0, .pop .that 0,
    .push .static 0, .push .argument 1, .call "Shelf.put" 2, .pop .temp 0,
    .push .constant 0, .return]

/-- The class has these commands. -/
theorem shelf_commands :
    shelf.commands {} = .ok (.function "Shelf.put" 0 :: puttingCode) := by
  simp [shelf, putting, Class.commands, ClassScope.ofClass, ClassScope.addSubroutine,
    subroutineCommands, Subroutine.commands, Scope.ofSubroutine, SymbolTable.declareAll,
    SymbolTable.declare, bodyCommands, Stmt.commands, Scope.resolve, Scope.lookup?, Scope.callee,
    argumentCommands, SymbolTable.get?, Expr.commands, Scope.receiverName,
    Std.HashMap.getElem_insert, Entry.push, Callee.call, bind, Except.bind, pure, Except.pure,
    puttingCode]
  exact ⟨⟨rfl, rfl⟩, by decide⟩

/-- The method accesses its receiver, the array, its parameter and the static variable at places of
their own. -/
theorem shelf_accesses :
    shelf.commands {} = .ok (.function "Shelf.put" 0 :: puttingCode) ∧
      putting ∈ shelf.subroutines ∧
      ∃ scope : Scope, scope.Allocates shelf putting ∧
        scope.placed [.read "this", .read "items", .read "at", .read "items", .read "next",
          .read "at"] = [.read (.argument, 0), .read (.this, 1), .read (.argument, 1),
            .read (.this, 1), .read (.static, 0), .read (.argument, 1)] ∧
        ∀ command ∈ puttingCode, command.StaysIn (putting.extent? shelf) := by
  have member : putting ∈ shelf.subroutines := List.mem_cons_self
  obtain ⟨known, scope, number, next, statements, -, -, -, found, allocates, performs, stays⟩ :=
    accesses_of_commands shelf_commands member
  have same : prologue {} known putting.kind ++ statements = puttingCode :=
    (List.cons.inj (Option.some.inj (found.symm.trans rfl))).2
  rw [same] at performs stays
  exact ⟨shelf_commands, member, scope, allocates, performs.symm, stays⟩

end Commands

end Jack

end JackToolchain
