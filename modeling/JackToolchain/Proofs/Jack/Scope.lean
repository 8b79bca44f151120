import JackToolchain.Jack.Scope
import JackToolchain.Proofs.Outcome
import Std.Data.HashMap.Lemmas

/-!
# Declarations

A scope knows exactly what is declared in it. The number of a name is the number of declarations of
the same storage in front of its own, and a class knows the kind of each of its subroutines.
-/
namespace JackToolchain.Jack

/-- A declaration of a name. -/
structure Declaration where
  /-- The name. -/
  name : String
  /-- Its type. -/
  type : JackType
  /-- Its storage. -/
  storage : Storage

/-- What is known of a name behind a declaration of a storage, if it is known of the name in front
of it. -/
def Entry.behind (storage : Storage) (entry : Entry) : Entry :=
  if entry.storage = storage then { entry with ordinal := entry.ordinal + 1 } else entry

/-- What declarations say of a name. -/
def declared? : List Declaration → String → Option Entry
  | [], _ => none
  | item :: rest, name =>
    if item.name = name then some ⟨item.type, item.storage, 0⟩
    else (declared? rest name).map (Entry.behind item.storage)

/-- The number of declarations of a storage. -/
def declaredCount (storage : Storage) (declarations : List Declaration) : Nat :=
  declarations.countP fun item => item.storage = storage

/-- The declarations of a subroutine: the receiver of a method is its first argument. -/
def Subroutine.declarations (className : String) (subroutine : Subroutine) : List Declaration :=
  (if subroutine.kind = .method then
      [⟨Scope.receiverName, .object className, .argument⟩] else []) ++
    subroutine.params.map (fun item => ⟨item.name.node, item.type, .argument⟩) ++
    subroutine.locals.map (fun item => ⟨item.name.node, item.type, .local⟩)

/-- The declarations of a class. -/
def Class.declarations (cls : Class) : List Declaration :=
  cls.vars.map fun item => ⟨item.name.node, item.type, item.storage.storage⟩

/-- The kind of a subroutine of a class. -/
def Class.kindOf? (cls : Class) (name : String) : Option SubroutineKind :=
  (cls.subroutines.find? fun subroutine => subroutine.name.node = name).map fun subroutine =>
    subroutine.kind

section Declarations

variable {declarations front : List Declaration} {item : Declaration} {name other : String}
variable {entry left right : Entry}

/-- What one declaration more says. -/
theorem declared?_concat (declarations : List Declaration) (item : Declaration) (name : String) :
    declared? (declarations ++ [item]) name =
      (declared? declarations name).or
        (if item.name = name then
          some ⟨item.type, item.storage, declaredCount item.storage declarations⟩
        else none) := by
  induction declarations with
  | nil => rfl
  | cons first rest ih =>
    rw [List.cons_append, declared?, declared?]
    split
    · rfl
    · rw [ih]
      cases declared? rest name with
      | some entry => rfl
      | none =>
        by_cases named : item.name = name
        · simp only [if_pos named, Option.or_some, Option.map_some, Option.map_none,
            Option.some.injEq, Entry.behind, declaredCount, List.countP_cons]
          by_cases same : item.storage = first.storage
          · simp [same]
          · have other : ¬ first.storage = item.storage := fun equal => same equal.symm
            simp [same, other]
        · simp [named]

/-- The number of a declared name is below the number of declarations of its storage, and its type
and storage are declared. -/
theorem of_declared? (known : declared? declarations name = some entry) :
    entry.ordinal < declaredCount entry.storage declarations ∧
      ∃ item ∈ declarations, item.type = entry.type ∧ item.storage = entry.storage := by
  induction declarations generalizing entry with
  | nil => contradiction
  | cons first rest ih =>
    rw [declared?] at known
    split at known
    · obtain rfl := Option.some.inj known
      refine ⟨?_, first, List.mem_cons_self, rfl, rfl⟩
      simp [declaredCount]
    · obtain ⟨earlier, found, rfl⟩ := Option.map_eq_some_iff.mp known
      obtain ⟨below, item, member, type, storage⟩ := ih found
      unfold Entry.behind
      split
      · rename_i same
        refine ⟨?_, item, List.mem_cons_of_mem _ member, type, storage⟩
        simp only [declaredCount, List.countP_cons, same, decide_true, if_true]
        rw [same] at below
        exact Nat.succ_lt_succ below
      · refine ⟨?_, item, List.mem_cons_of_mem _ member, type, storage⟩
        exact Nat.lt_of_lt_of_le below (by simp [declaredCount, List.countP_cons])

/-- Nothing is said of a name that is not declared. -/
theorem declared?_eq_none (new : name ∉ declarations.map Declaration.name) :
    declared? declarations name = none := by
  induction declarations with
  | nil => rfl
  | cons first rest ih =>
    rw [List.map_cons, List.mem_cons, not_or] at new
    rw [declared?, if_neg (Ne.symm new.1), ih new.2, Option.map_none]

/-- Something is said of a name that is declared. -/
theorem exists_declared? (member : name ∈ declarations.map Declaration.name) :
    ∃ entry, declared? declarations name = some entry := by
  induction declarations with
  | nil => contradiction
  | cons first rest ih =>
    rw [declared?]
    split
    · exact ⟨_, rfl⟩
    · rename_i new
      have later : name ∈ rest.map Declaration.name :=
        (List.mem_cons.mp member).resolve_left fun same => new same.symm
      obtain ⟨entry, known⟩ := ih later
      exact ⟨entry.behind first.storage, by rw [known, Option.map_some]⟩

/-- A new name gets the next number of its storage. -/
theorem declared?_middle (new : item.name ∉ front.map Declaration.name)
    (back : List Declaration) :
    declared? (front ++ item :: back) item.name =
      some ⟨item.type, item.storage, declaredCount item.storage front⟩ := by
  induction front with
  | nil =>
    rw [List.nil_append, declared?, if_pos rfl]
    rfl
  | cons first rest ih =>
    rw [List.map_cons, List.mem_cons, not_or] at new
    rw [List.cons_append, declared?, if_neg (Ne.symm new.1), ih new.2, Option.map_some,
      Entry.behind, declaredCount, declaredCount, List.countP_cons]
    by_cases same : item.storage = first.storage
    · simp [same]
    · have different : ¬ first.storage = item.storage := fun equal => same equal.symm
      simp [same, different]

/-- A name that is declared once has the number of declarations of its storage in front. -/
theorem declared?_of_nodup {back : List Declaration}
    (distinct : ((front ++ item :: back).map Declaration.name).Nodup) :
    declared? (front ++ item :: back) item.name =
      some ⟨item.type, item.storage, declaredCount item.storage front⟩ := by
  rw [List.map_append, List.map_cons] at distinct
  have new : item.name ∉ front.map Declaration.name := fun old =>
    (List.nodup_append.mp distinct).2.2 _ old _ List.mem_cons_self rfl
  exact declared?_middle new back

/-- What is said of a name that is declared once is its declaration. -/
theorem declared?_of_mem (distinct : (declarations.map Declaration.name).Nodup)
    (member : item ∈ declarations) :
    ∃ index, declared? declarations item.name = some ⟨item.type, item.storage, index⟩ := by
  obtain ⟨front, back, rfl⟩ := List.append_of_mem member
  exact ⟨_, declared?_of_nodup distinct⟩

/-- A name behind a declaration has the storage that it has without it. -/
theorem Entry.storage_behind (storage : Storage) (entry : Entry) :
    (entry.behind storage).storage = entry.storage := by
  unfold Entry.behind
  split <;> rfl

/-- A name behind a declaration of its storage has the next number. -/
theorem Entry.ordinal_behind (storage : Storage) (entry : Entry) :
    (entry.behind storage).ordinal =
      if entry.storage = storage then entry.ordinal + 1 else entry.ordinal := by
  unfold Entry.behind
  split <;> rfl

/-- Two names do not have the same number of one storage. -/
theorem declared?_inj (known : declared? declarations name = some left)
    (otherKnown : declared? declarations other = some right) (storage : left.storage = right.storage)
    (ordinal : left.ordinal = right.ordinal) : name = other := by
  induction declarations generalizing left right with
  | nil => contradiction
  | cons first rest ih =>
    rw [declared?] at known otherKnown
    split at known <;> split at otherKnown
    · rename_i same otherSame
      exact same.symm.trans otherSame
    · -- Behind a declaration of its storage, no name has the number zero.
      obtain rfl := Option.some.inj known
      obtain ⟨later, -, rfl⟩ := Option.map_eq_some_iff.mp otherKnown
      rw [Entry.storage_behind] at storage
      rw [Entry.ordinal_behind, if_pos storage.symm] at ordinal
      contradiction
    · obtain rfl := Option.some.inj otherKnown
      obtain ⟨later, -, rfl⟩ := Option.map_eq_some_iff.mp known
      rw [Entry.storage_behind] at storage
      rw [Entry.ordinal_behind, if_pos storage] at ordinal
      contradiction
    · obtain ⟨later, found, rfl⟩ := Option.map_eq_some_iff.mp known
      obtain ⟨otherLater, otherFound, rfl⟩ := Option.map_eq_some_iff.mp otherKnown
      rw [Entry.storage_behind, Entry.storage_behind] at storage
      rw [Entry.ordinal_behind, Entry.ordinal_behind, storage] at ordinal
      refine ih found otherFound storage ?_
      split at ordinal <;> omega

end Declarations

/-- The number of declarations of each storage in a subroutine. -/
theorem declaredCount_subroutine (className : String) (subroutine : Subroutine)
    (storage : Storage) :
    declaredCount storage (subroutine.declarations className) =
      match storage with
      | .argument =>
        (if subroutine.kind = .method then 1 else 0) + subroutine.params.length
      | .local => subroutine.locals.length
      | .static | .field => 0 := by
  unfold declaredCount Subroutine.declarations
  rw [List.countP_append, List.countP_append, List.countP_map, List.countP_map]
  cases storage <;> by_cases isMethod : subroutine.kind = .method <;>
    simp [isMethod, Function.comp_def]

/-- The number of declarations of each storage in a class. -/
theorem declaredCount_class (cls : Class) (storage : Storage) :
    declaredCount storage cls.declarations =
      match storage with
      | .static => cls.vars.countP fun item => item.storage = .static
      | .field => cls.vars.countP fun item => item.storage = .field
      | .argument | .local => 0 := by
  have cases (given : ClassStorage) : (given.storage = .static ↔ given = .static) ∧
      (given.storage = .field ↔ given = .field) ∧
      given.storage ≠ .argument ∧ given.storage ≠ .local := by
    cases given <;> decide
  unfold declaredCount Class.declarations
  rw [List.countP_map]
  cases storage with
  | static => exact List.countP_congr fun item _ => by simpa using (cases item.storage).1
  | field => exact List.countP_congr fun item _ => by simpa using (cases item.storage).2.1
  | argument =>
    exact List.countP_eq_zero.mpr fun item _ => by simpa using (cases item.storage).2.2.1
  | «local» =>
    exact List.countP_eq_zero.mpr fun item _ => by simpa using (cases item.storage).2.2.2

/-! ## Tables -/

/-- A table knows what is declared and nothing else. -/
structure SymbolTable.Knows (table : SymbolTable) (declarations : List Declaration) : Prop where
  /-- What it knows of each name. -/
  get : ∀ name, table.get? name = declared? declarations name
  /-- The number of names of each storage. -/
  count : ∀ storage, table.counts.get storage = declaredCount storage declarations

section Tables

variable {table final : SymbolTable} {declarations : List Declaration}

/-- A table without names knows no declaration. -/
theorem SymbolTable.knows_nil (scope : String) : ({ scope := scope } : SymbolTable).Knows [] where
  get := fun name => by simp [SymbolTable.get?, declared?]
  count := fun storage => by cases storage <;> rfl

/-- One name more of a storage. -/
theorem Counts.get_increment (counts : Counts) (storage other : Storage) :
    (counts.increment storage).get other =
      counts.get other + if storage = other then 1 else 0 := by
  cases storage <;> cases other <;> rfl

/-- A declared name is known behind the others. -/
theorem SymbolTable.Knows.declare {name : Name} {type : JackType} {storage : Storage}
    (knows : table.Knows declarations) (declared : table.declare name type storage = .ok final) :
    final.Knows (declarations ++ [⟨name.node, type, storage⟩]) := by
  unfold SymbolTable.declare at declared
  split at declared
  · contradiction
  · rename_i fresh
    obtain rfl := Except.ok.inj declared
    have unknown : declared? declarations name.node = none := by
      rw [← knows.get, SymbolTable.get?, Std.HashMap.getElem?_eq_none]
      simpa [Std.HashMap.contains_iff_mem] using fresh
    constructor
    · intro other
      rw [declared?_concat, SymbolTable.get?, Std.HashMap.getElem?_insert, ← knows.get other]
      dsimp only
      by_cases same : name.node = other
      · subst same
        rw [if_pos (beq_self_eq_true _), if_pos rfl, knows.get, unknown, knows.count]
        rfl
      · rw [if_neg (by simpa using same), if_neg same, Option.or_none]
        rfl
    · intro other
      change (table.counts.increment storage).get other = _
      rw [Counts.get_increment, knows.count, declaredCount, declaredCount, List.countP_append,
        List.countP_singleton]
      simp

/-- Names that are declared one after another are known behind the others. -/
theorem SymbolTable.Knows.fold {α : Type} {items : List α} (name : α → Name) (type : α → JackType)
    (storage : α → Storage) (knows : table.Knows declarations)
    (declared : items.foldlM (fun table item =>
      table.declare (name item) (type item) (storage item)) table = .ok final) :
    final.Knows (declarations ++
      items.map fun item => ⟨(name item).node, type item, storage item⟩) := by
  induction items generalizing table declarations with
  | nil =>
    obtain rfl := Except.ok.inj declared
    rw [List.map_nil, List.append_nil]
    exact knows
  | cons item rest ih =>
    rw [List.foldlM_cons] at declared
    obtain ⟨middle, first, others⟩ := bind_eq_ok.mp declared
    have later := ih (knows.declare first) others
    rwa [List.append_assoc, List.singleton_append] at later

/-- A new name can be declared. -/
theorem SymbolTable.Knows.exists_declare {name : Name} (knows : table.Knows declarations)
    (new : name.node ∉ declarations.map Declaration.name) (type : JackType) (storage : Storage) :
    ∃ final, table.declare name type storage = .ok final := by
  have unknown : ¬ table.entries.contains name.node = true := by
    have none : table.entries[name.node]? = none :=
      (knows.get name.node).trans (declared?_eq_none new)
    rw [Std.HashMap.contains_eq_isSome_getElem?, none]
    exact Bool.false_ne_true
  exact ⟨_, if_neg unknown⟩

/-- New names that are all different can be declared one after another. -/
theorem SymbolTable.Knows.exists_fold {α : Type} {items : List α} (name : α → Name)
    (type : α → JackType) (storage : α → Storage) (knows : table.Knows declarations)
    (distinct : (declarations.map Declaration.name ++
      items.map fun item => (name item).node).Nodup) :
    ∃ final, items.foldlM (fun table item =>
      table.declare (name item) (type item) (storage item)) table = .ok final := by
  induction items generalizing table declarations with
  | nil => exact ⟨table, rfl⟩
  | cons item rest ih =>
    have new : (name item).node ∉ declarations.map Declaration.name := fun old =>
      (List.nodup_append.mp distinct).2.2 _ old _ List.mem_cons_self rfl
    obtain ⟨middle, declared⟩ := knows.exists_declare new (type item) (storage item)
    have others := ih (knows.declare declared) (by
      simpa only [List.map_append, List.append_assoc, List.map_cons, List.map_nil,
        List.singleton_append] using distinct)
    obtain ⟨final, folded⟩ := others
    rw [List.foldlM_cons]
    exact ⟨final, bind_eq_ok.mpr ⟨middle, declared, folded⟩⟩

/-- A name that is declared is new. -/
theorem SymbolTable.Knows.new_of_declare {name : Name} {type : JackType} {storage : Storage}
    (knows : table.Knows declarations) (declared : table.declare name type storage = .ok final) :
    name.node ∉ declarations.map Declaration.name := by
  intro member
  obtain ⟨entry, known⟩ := exists_declared? member
  rw [← knows.get, SymbolTable.get?] at known
  have there : table.entries.contains name.node = true := by
    rw [Std.HashMap.contains_eq_isSome_getElem?, known]
    rfl
  unfold SymbolTable.declare at declared
  rw [if_pos there] at declared
  contradiction

/-- Names that are declared one after another are new and all different. -/
theorem SymbolTable.Knows.nodup_of_fold {α : Type} {items : List α} (name : α → Name)
    (type : α → JackType) (storage : α → Storage) (knows : table.Knows declarations)
    (distinct : (declarations.map Declaration.name).Nodup)
    (declared : items.foldlM (fun table item =>
      table.declare (name item) (type item) (storage item)) table = .ok final) :
    (declarations.map Declaration.name ++ items.map fun item => (name item).node).Nodup := by
  induction items generalizing table declarations with
  | nil =>
    rw [List.map_nil, List.append_nil]
    exact distinct
  | cons item rest ih =>
    rw [List.foldlM_cons] at declared
    obtain ⟨middle, first, others⟩ := bind_eq_ok.mp declared
    let own : Declaration := ⟨(name item).node, type item, storage item⟩
    have longer : ((declarations ++ [own]).map Declaration.name).Nodup := by
      rw [List.map_append, List.map_singleton]
      refine List.nodup_append.mpr ⟨distinct, by simp, fun old member _ single same => ?_⟩
      rw [same, List.mem_singleton.mp single] at member
      exact knows.new_of_declare first member
    have later := ih (knows.declare first) longer others
    simpa using later

end Tables

/-! ## Scopes -/

section Scopes

variable {cls : Class} {known : ClassScope} {subroutine : Subroutine} {scope : Scope}

/-- A subroutine is added exactly if its name is new. -/
theorem addSubroutine_eq_ok {className : String} {table later : Std.HashMap String SubroutineKind} :
    ClassScope.addSubroutine className table subroutine = .ok later ↔
      subroutine.name.node ∉ table ∧ table.insert subroutine.name.node subroutine.kind = later := by
  rw [ClassScope.addSubroutine, ← Std.HashMap.contains_iff_mem]
  split
  · rename_i known
    exact iff_of_false (fun added => by contradiction) fun added => added.1 known
  · rename_i fresh
    exact ⟨fun added => ⟨fresh, Except.ok.inj added⟩, fun added => congrArg Except.ok added.2⟩

/-- The kinds of subroutines that are added one after another are known. -/
private theorem kind_of_fold {className : String} {subroutines : List Subroutine}
    {table final : Std.HashMap String SubroutineKind}
    (added : subroutines.foldlM (ClassScope.addSubroutine className) table = .ok final)
    (name : String) :
    final[name]? = table[name]?.or
      ((subroutines.find? fun subroutine => subroutine.name.node = name).map fun subroutine =>
        subroutine.kind) := by
  induction subroutines generalizing table with
  | nil =>
    obtain rfl := Except.ok.inj added
    exact Option.or_none.symm
  | cons subroutine rest ih =>
    rw [List.foldlM_cons] at added
    obtain ⟨middle, first, others⟩ := bind_eq_ok.mp added
    obtain ⟨fresh, rfl⟩ := addSubroutine_eq_ok.mp first
    rw [ih others, Std.HashMap.getElem?_insert, List.find?_cons]
    by_cases same : subroutine.name.node = name
    · have unknown : table[name]? = none := Std.HashMap.getElem?_eq_none (same ▸ fresh)
      simp [same, unknown]
    · simp [same]

/-- Subroutines are added only under names that are new. -/
private theorem distinct_of_fold {className : String} {subroutines : List Subroutine}
    {table final : Std.HashMap String SubroutineKind}
    (added : subroutines.foldlM (ClassScope.addSubroutine className) table = .ok final) :
    (subroutines.map fun subroutine => subroutine.name.node).Nodup ∧
      ∀ subroutine ∈ subroutines, subroutine.name.node ∉ table := by
  induction subroutines generalizing table with
  | nil => exact ⟨List.Pairwise.nil, fun subroutine member => by contradiction⟩
  | cons subroutine rest ih =>
    rw [List.foldlM_cons] at added
    obtain ⟨middle, first, others⟩ := bind_eq_ok.mp added
    obtain ⟨fresh, rfl⟩ := addSubroutine_eq_ok.mp first
    obtain ⟨distinct, new⟩ := ih others
    constructor
    · refine List.nodup_cons.mpr ⟨fun again => ?_, distinct⟩
      obtain ⟨other, member, same⟩ := List.mem_map.mp again
      refine new other member ?_
      rw [same]
      exact Std.HashMap.mem_insert_self
    · refine List.forall_mem_cons.mpr ⟨fresh, fun other member old => new other member ?_⟩
      exact Std.HashMap.mem_insert.mpr (.inr old)

/-- The subroutines of a class have different names. -/
theorem distinct_of_ofClass (made : ClassScope.ofClass cls = .ok known) :
    (cls.subroutines.map fun subroutine => subroutine.name.node).Nodup := by
  obtain ⟨vars, _, rest⟩ := bind_eq_ok.mp made
  obtain ⟨subroutines, subroutinesMade, _⟩ := bind_eq_ok.mp rest
  exact (distinct_of_fold subroutinesMade).1

/-- A class knows its variables and its subroutines. -/
theorem knows_of_ofClass (made : ClassScope.ofClass cls = .ok known) :
    known.name = cls.name.node ∧ known.vars.Knows cls.declarations ∧
      ∀ name, known.subroutines[name]? = cls.kindOf? name := by
  obtain ⟨vars, varsMade, rest⟩ := bind_eq_ok.mp made
  obtain ⟨subroutines, subroutinesMade, result⟩ := bind_eq_ok.mp rest
  obtain rfl := Except.ok.inj result
  refine ⟨rfl, ?_, fun name => ?_⟩
  · exact (SymbolTable.knows_nil _).fold (fun item : ClassVariable => item.name)
      (fun item => item.type) (fun item => item.storage.storage) varsMade
  · rw [kind_of_fold subroutinesMade name]
    simp [Class.kindOf?]

/-- A subroutine knows its parameters and local variables. -/
theorem knows_of_ofSubroutine (made : Scope.ofSubroutine known subroutine = .ok scope) :
    scope.cls = known ∧ scope.routine.Knows (subroutine.declarations known.name) := by
  have later {receiver : SymbolTable} {front : List Declaration} (knows : receiver.Knows front)
      (declared : (do
        let params ← receiver.declareAll .argument subroutine.params
        let routine ← params.declareAll .local subroutine.locals
        return { cls := known, routine } : Outcome Scope) = .ok scope) :
      scope.cls = known ∧ scope.routine.Knows (front ++
        subroutine.params.map (fun item => ⟨item.name.node, item.type, .argument⟩) ++
        subroutine.locals.map (fun item => ⟨item.name.node, item.type, .local⟩)) := by
    obtain ⟨params, paramsMade, rest⟩ := bind_eq_ok.mp declared
    obtain ⟨routine, routineMade, result⟩ := bind_eq_ok.mp rest
    obtain rfl := Except.ok.inj result
    have withParams := knows.fold (fun item : Variable => item.name) (fun item => item.type)
      (fun _ => .argument) paramsMade
    exact ⟨rfl, withParams.fold (fun item : Variable => item.name) (fun item => item.type)
      (fun _ => .local) routineMade⟩
  have start := SymbolTable.knows_nil (ClassScope.qualify known.name subroutine.name.node)
  unfold Scope.ofSubroutine at made
  unfold Subroutine.declarations
  dsimp only at made
  split at made
  · rename_i isMethod
    obtain ⟨receiver, receiverMade, rest⟩ := bind_eq_ok.mp made
    have := later (start.declare receiverMade) rest
    rwa [if_pos isMethod]
  · rename_i noMethod
    rw [if_neg noMethod]
    exact later start made

/-- The variables of a class have different names. -/
theorem nodup_of_ofClass (made : ClassScope.ofClass cls = .ok known) :
    (cls.declarations.map Declaration.name).Nodup := by
  obtain ⟨vars, varsMade, -⟩ := bind_eq_ok.mp made
  have distinct := (SymbolTable.knows_nil _).nodup_of_fold (fun item : ClassVariable => item.name)
    (fun item => item.type) (fun item => item.storage.storage) .nil varsMade
  rwa [Class.declarations, List.map_map]

/-- The receiver of a subroutine, its parameters and its local variables have different names. -/
theorem nodup_of_ofSubroutine (made : Scope.ofSubroutine known subroutine = .ok scope) :
    ((subroutine.declarations known.name).map Declaration.name).Nodup := by
  have later {receiver : SymbolTable} {front : List Declaration} (knows : receiver.Knows front)
      (distinct : (front.map Declaration.name).Nodup)
      (declared : (do
        let params ← receiver.declareAll .argument subroutine.params
        let routine ← params.declareAll .local subroutine.locals
        return { cls := known, routine } : Outcome Scope) = .ok scope) :
      (front.map Declaration.name ++ subroutine.params.map (fun item => item.name.node) ++
        subroutine.locals.map fun item => item.name.node).Nodup := by
    obtain ⟨params, paramsMade, rest⟩ := bind_eq_ok.mp declared
    obtain ⟨routine, routineMade, -⟩ := bind_eq_ok.mp rest
    have withParams := knows.fold (fun item : Variable => item.name) (fun item => item.type)
      (fun _ => .argument) paramsMade
    have paramsDistinct := knows.nodup_of_fold (fun item : Variable => item.name)
      (fun item => item.type) (fun _ => .argument) distinct paramsMade
    have distinct := withParams.nodup_of_fold (fun item : Variable => item.name)
      (fun item => item.type) (fun _ => .local)
      (by simpa [Function.comp_def] using paramsDistinct) routineMade
    simpa [Function.comp_def] using distinct
  have start := SymbolTable.knows_nil (ClassScope.qualify known.name subroutine.name.node)
  unfold Scope.ofSubroutine at made
  unfold Subroutine.declarations
  dsimp only at made
  rw [List.map_append, List.map_append, List.map_map, List.map_map]
  split at made
  · rename_i isMethod
    obtain ⟨receiver, receiverMade, rest⟩ := bind_eq_ok.mp made
    rw [if_pos isMethod]
    exact later (start.declare receiverMade) (by simp) rest
  · rename_i noMethod
    rw [if_neg noMethod]
    exact later start .nil made

end Scopes

end JackToolchain.Jack
