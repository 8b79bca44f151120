import JackToolchain.Jack.Commands
import JackToolchain.Proofs.Jack.Scope

/-!
# Faults of scope

A class is compiled unless a name is declared twice in one scope or used without a declaration. The
faults of a class are computed from its declarations and uses alone, in the order in which they are
looked at, and the compiler reports the first of them.
-/
namespace JackToolchain.Jack

open Vm (Command RuntimeNames)

/-! ## Uses -/

/-- A use of a name that must be declared. -/
inductive Use where
  /-- A variable that is read or written, also as an array. -/
  | variable (name : Name)
  /-- A subroutine that is called without a receiver. -/
  | subroutine (name : Name)

/-- The name that is used. -/
def Use.name : Use → Name
  | .variable name | .subroutine name => name

/-- The uses of a call besides those in its arguments. -/
def callUses (receiver : Option Name) (callee : Name) : List Use :=
  match receiver with
  | some _ => []
  | none => [.subroutine callee]

mutual

/-- The uses in an expression, in the order of evaluation. -/
def Expr.uses : Expr → List Use
  | .binary _ left right _ => left.uses ++ right.uses
  | .unary _ operand _ => operand.uses
  | .integer _ _ | .string _ _ | .boolean _ _ | .null _ | .this _ => []
  | .variable name span => [.variable ⟨name, span⟩]
  | .element array index _ => index.uses ++ [.variable array]
  | .call receiver callee args _ => callUses receiver callee ++ Expr.allUses args
  | .group inner _ => inner.uses

/-- The uses in expressions. -/
def Expr.allUses : List Expr → List Use
  | [] => []
  | expr :: rest => expr.uses ++ Expr.allUses rest

end

mutual

/-- The uses in a statement, in the order of evaluation. -/
def Stmt.uses : Stmt → List Use
  | .assign target value _ => value.uses ++ [.variable target]
  | .assignElement array index value _ => .variable array :: (index.uses ++ value.uses)
  | .branch condition thenBody elseBody _ =>
    condition.uses ++ (Stmt.bodyUses thenBody ++ Stmt.bodyUses elseBody)
  | .loop condition body _ => condition.uses ++ Stmt.bodyUses body
  | .call receiver callee args _ => callUses receiver callee ++ Expr.allUses args
  | .leave none _ => []
  | .leave (some result) _ => result.uses

/-- The uses in statements. -/
def Stmt.bodyUses : List Stmt → List Use
  | [] => []
  | stmt :: rest => stmt.uses ++ Stmt.bodyUses rest

end

/-! ## Faults -/

/-- The names that a subroutine declares: its parameters and its local variables. -/
def Subroutine.declaredNames (subroutine : Subroutine) : List Name :=
  subroutine.params.map (fun item => item.name) ++ subroutine.locals.map (fun item => item.name)

/-- The names of the variables of a class. -/
def Class.variableNames (cls : Class) : List Name := cls.vars.map fun item => item.name

/-- The names of the subroutines of a class. -/
def Class.subroutineNames (cls : Class) : List Name := cls.subroutines.map fun item => item.name

/-- The fault of a name that is declared again. -/
def repetition (title : String) (name : Name) : Spanned Fault :=
  ⟨.duplicate title name.node, name.span⟩

/-- The faults of names that are declared one after the other behind known ones. -/
def repetitions (title : String) : List String → List Name → List (Spanned Fault)
  | _, [] => []
  | known, name :: rest =>
    (if name.node ∈ known then [repetition title name] else []) ++
      repetitions title (known ++ [name.node]) rest

/-- A use in a subroutine has a declaration: a variable in the subroutine or in its class, and a
subroutine in the class. -/
def Use.Declared (cls : Class) (subroutine : Subroutine) : Use → Prop
  | .variable name =>
    name.node ∈ subroutine.declaredNames.map Spanned.node ∨
      name.node ∈ cls.variableNames.map Spanned.node
  | .subroutine name => name.node ∈ cls.subroutineNames.map Spanned.node

instance (cls : Class) (subroutine : Subroutine) (use : Use) :
    Decidable (use.Declared cls subroutine) :=
  match use with
  | .variable name =>
    inferInstanceAs (Decidable (name.node ∈ subroutine.declaredNames.map Spanned.node ∨
      name.node ∈ cls.variableNames.map Spanned.node))
  | .subroutine name =>
    inferInstanceAs (Decidable (name.node ∈ cls.subroutineNames.map Spanned.node))

/-- The fault of a use without a declaration. -/
def Use.fault (cls : Class) (subroutine : Subroutine) : Use → Spanned Fault
  | .variable name =>
    ⟨.undeclaredVariable (ClassScope.qualify cls.name.node subroutine.name.node) name.node,
      name.span⟩
  | .subroutine name => ⟨.unknownSubroutine cls.name.node name.node, name.span⟩

/-- The faults of a subroutine. -/
def Subroutine.faults (cls : Class) (subroutine : Subroutine) : List (Spanned Fault) :=
  repetitions (ClassScope.qualify cls.name.node subroutine.name.node) []
      subroutine.declaredNames ++
    ((Stmt.bodyUses subroutine.body).filter fun use => ¬ use.Declared cls subroutine).map
      (Use.fault cls subroutine)

/-- The faults of the scopes of a class. -/
def Class.faults (cls : Class) : List (Spanned Fault) :=
  repetitions (ClassScope.title cls.name.node) [] cls.variableNames ++
    (repetitions (ClassScope.title cls.name.node) [] cls.subroutineNames ++
      cls.subroutines.flatMap (Subroutine.faults cls))

/-! ## Reports -/

section Reports

variable {α β : Type} {first : Outcome α} {next : α → Outcome β} {outcome : Outcome α}
variable {faults others : List (Spanned Fault)}

/-- An outcome reports the first of the faults, and it is a success if there is none. -/
def Reports (faults : List (Spanned Fault)) : Outcome α → Prop
  | .ok _ => faults = []
  | .error fault => faults.head? = some fault

/-- A success has no fault. -/
theorem reports_pure (value : α) : Reports [] (pure value : Outcome α) := rfl

/-- The first step comes before what depends on it. -/
theorem Reports.bind (own : Reports faults first)
    (after : ∀ value, first = .ok value → Reports others (next value)) :
    Reports (faults ++ others) (first >>= next) := by
  cases first with
  | error fault =>
    change (faults ++ others).head? = some fault
    rw [List.head?_append, show faults.head? = some fault from own]
    rfl
  | ok value =>
    have none : faults = [] := own
    rw [none, List.nil_append]
    exact after value rfl

/-- A step behind which nothing fails. -/
theorem Reports.finish (own : Reports faults first)
    (after : ∀ value, first = .ok value → Reports [] (next value)) :
    Reports faults (first >>= next) := by
  have whole := own.bind after
  rwa [List.append_nil] at whole

/-- An outcome is a fault exactly if there is one. -/
theorem Reports.exists_error_iff (reports : Reports faults outcome) :
    (∃ fault, outcome = .error fault) ↔ faults ≠ [] := by
  cases outcome with
  | ok value =>
    have none : faults = [] := reports
    simp [none]
  | error fault =>
    have some : faults.head? = some fault := reports
    refine iff_of_true ⟨fault, rfl⟩ fun none => ?_
    rw [none] at some
    contradiction

/-- A fault that is reported is one of the faults. -/
theorem Reports.mem {fault : Spanned Fault} (reports : Reports faults outcome)
    (failed : outcome = .error fault) : fault ∈ faults := by
  subst failed
  exact List.mem_of_mem_head? reports

end Reports

/-! ## Repeated names -/

section Repetitions

variable {title : String} {known other : List String} {names more : List Name}

/-- The names of a longer list are declared behind the first ones. -/
theorem repetitions_append :
    repetitions title known (names ++ more) =
      repetitions title known names ++
        repetitions title (known ++ names.map Spanned.node) more := by
  induction names generalizing known with
  | nil => rw [List.nil_append, List.map_nil, List.append_nil, repetitions, List.nil_append]
  | cons name rest ih =>
    rw [List.cons_append, repetitions, repetitions, ih, List.append_assoc, List.map_cons,
      List.append_assoc, List.singleton_append]

/-- Only the known names that are declared again matter. -/
theorem repetitions_congr (same : ∀ name ∈ names, (name.node ∈ known ↔ name.node ∈ other)) :
    repetitions title known names = repetitions title other names := by
  induction names generalizing known other with
  | nil => rfl
  | cons name rest ih =>
    have later : ∀ item ∈ rest, (item.node ∈ known ++ [name.node] ↔
        item.node ∈ other ++ [name.node]) := by
      intro item member
      rw [List.mem_append, List.mem_append, same item (List.mem_cons_of_mem _ member)]
    have own := same name List.mem_cons_self
    rw [repetitions, repetitions, ih later]
    by_cases again : name.node ∈ known
    · rw [if_pos again, if_pos (own.mp again)]
    · rw [if_neg again, if_neg (again ∘ own.mpr)]

/-- Names are declared without a fault exactly if they are new and all different. -/
theorem repetitions_eq_nil (distinct : known.Nodup) :
    repetitions title known names = [] ↔ (known ++ names.map Spanned.node).Nodup := by
  induction names generalizing known with
  | nil =>
    rw [List.map_nil, List.append_nil]
    exact iff_of_true rfl distinct
  | cons name rest ih =>
    rw [repetitions, List.map_cons]
    by_cases again : name.node ∈ known
    · rw [if_pos again]
      refine iff_of_false (by simp) fun whole => ?_
      exact (List.nodup_append.mp whole).2.2 _ again _ List.mem_cons_self rfl
    · have longer : (known ++ [name.node]).Nodup := by
        refine List.nodup_append.mpr ⟨distinct, by simp, fun old member _ single same => ?_⟩
        rw [same, List.mem_singleton.mp single] at member
        exact again member
      have split : known ++ name.node :: rest.map Spanned.node =
          known ++ [name.node] ++ rest.map Spanned.node := by simp
      rw [if_neg again, List.nil_append, split]
      exact ih longer

/-- A fault of repeated names is that of one of them. -/
theorem of_mem_repetitions {fault : Spanned Fault}
    (member : fault ∈ repetitions title known names) :
    ∃ name ∈ names, fault = repetition title name := by
  induction names generalizing known with
  | nil => contradiction
  | cons name rest ih =>
    rcases List.mem_append.mp member with own | later
    · by_cases again : name.node ∈ known
      · rw [if_pos again] at own
        exact ⟨name, List.mem_cons_self, List.mem_singleton.mp own⟩
      · rw [if_neg again] at own
        contradiction
    · obtain ⟨item, inside, same⟩ := ih later
      exact ⟨item, List.mem_cons_of_mem _ inside, same⟩

end Repetitions

/-! ## Tables -/

section Tables

variable {table : SymbolTable} {declarations : List Declaration}

/-- Declaring a name reports that it is known. -/
theorem reports_declare (knows : table.Knows declarations) (name : Name) (type : JackType)
    (storage : Storage) :
    Reports (if name.node ∈ declarations.map Declaration.name then [repetition table.scope name]
      else []) (table.declare name type storage) := by
  by_cases again : name.node ∈ declarations.map Declaration.name
  · rw [if_pos again]
    cases declared : table.declare name type storage with
    | ok final => exact absurd again (knows.new_of_declare declared)
    | error fault =>
      unfold SymbolTable.declare at declared
      split at declared
      · obtain rfl := Except.error.inj declared
        rfl
      · contradiction
  · obtain ⟨final, declared⟩ := knows.exists_declare again type storage
    rw [if_neg again, declared]
    rfl

/-- A declaration does not change what messages call the scope. -/
theorem scope_of_declare {final : SymbolTable} {name : Name} {type : JackType}
    {storage : Storage} (declared : table.declare name type storage = .ok final) :
    final.scope = table.scope := by
  unfold SymbolTable.declare at declared
  split at declared
  · contradiction
  · obtain rfl := Except.ok.inj declared
    rfl

/-- Names that are declared one after another report the repeated ones. -/
theorem reports_fold {α : Type} {items : List α} (name : α → Name) (type : α → JackType)
    (storage : α → Storage) (knows : table.Knows declarations) :
    Reports (repetitions table.scope (declarations.map Declaration.name) (items.map name))
      (items.foldlM (fun table item =>
        table.declare (name item) (type item) (storage item)) table) := by
  induction items generalizing table declarations with
  | nil => exact reports_pure table
  | cons item rest ih =>
    rw [List.foldlM_cons, List.map_cons, repetitions]
    refine (reports_declare knows (name item) _ _).bind fun middle declared => ?_
    have later := ih (knows.declare declared)
    rw [scope_of_declare declared, List.map_append] at later
    exact later

/-- Subroutines that are added one after another report repeated names. -/
theorem reports_addSubroutine {className : String} {subroutines : List Subroutine}
    {table : Std.HashMap String SubroutineKind} {known : List String}
    (knows : ∀ name, name ∈ table ↔ name ∈ known) :
    Reports (repetitions (ClassScope.title className) known
        (subroutines.map fun item => item.name))
      (subroutines.foldlM (ClassScope.addSubroutine className) table) := by
  induction subroutines generalizing table known with
  | nil => exact reports_pure table
  | cons subroutine rest ih =>
    have own : Reports (if subroutine.name.node ∈ known then
        [repetition (ClassScope.title className) subroutine.name] else [])
        (ClassScope.addSubroutine className table subroutine) := by
      have contained : table.contains subroutine.name.node = true ↔
          subroutine.name.node ∈ known := Std.HashMap.contains_iff_mem.trans (knows _)
      unfold ClassScope.addSubroutine
      dsimp only
      by_cases again : subroutine.name.node ∈ known
      · rw [if_pos again, if_pos (contained.mpr again)]
        rfl
      · rw [if_neg again, if_neg (again ∘ contained.mp)]
        rfl
    rw [List.foldlM_cons, List.map_cons, repetitions]
    refine own.bind fun middle added => ih fun name => ?_
    obtain ⟨-, rfl⟩ := addSubroutine_eq_ok.mp added
    rw [Std.HashMap.mem_insert, knows, beq_iff_eq, List.mem_append, List.mem_singleton, or_comm,
      eq_comm]

end Tables

/-! ## Scopes -/

section Scopes

variable {cls : Class} {known : ClassScope} {subroutine : Subroutine} {scope : Scope}

/-- The scope of a class reports repeated names of variables and then of subroutines. -/
theorem reports_ofClass (cls : Class) :
    Reports (repetitions (ClassScope.title cls.name.node) [] cls.variableNames ++
        repetitions (ClassScope.title cls.name.node) [] cls.subroutineNames)
      (ClassScope.ofClass cls) := by
  refine Reports.bind ?_ fun vars _ => Reports.finish ?_ fun subroutines _ => reports_pure _
  · exact reports_fold (fun item : ClassVariable => item.name) (fun item => item.type)
      (fun item => item.storage.storage) (SymbolTable.knows_nil _)
  · exact reports_addSubroutine fun name => iff_of_false Std.HashMap.not_mem_empty (by simp)

/-- The scope of a subroutine reports repeated names, unless one is that of the receiver. -/
theorem reports_ofSubroutine
    (plain : ∀ name ∈ subroutine.declaredNames, name.node ≠ Scope.receiverName) :
    Reports (repetitions (ClassScope.qualify known.name subroutine.name.node) []
      subroutine.declaredNames) (Scope.ofSubroutine known subroutine) := by
  have later {receiver : SymbolTable} {front : List Declaration} (knows : receiver.Knows front) :
      Reports (repetitions receiver.scope (front.map Declaration.name) subroutine.declaredNames)
        (do
          let params ← receiver.declareAll .argument subroutine.params
          let routine ← params.declareAll .local subroutine.locals
          return { cls := known, routine } : Outcome Scope) := by
    rw [Subroutine.declaredNames, repetitions_append]
    refine (reports_fold (fun item : Variable => item.name) (fun item => item.type)
      (fun _ => .argument) knows).bind fun params declared => ?_
    have paramsKnow := knows.fold (fun item : Variable => item.name) (fun item => item.type)
      (fun _ => .argument) declared
    have title : params.scope = receiver.scope :=
      foldlM_invariant (fun table : SymbolTable => table.scope = receiver.scope)
        (fun step same => (scope_of_declare step).trans same) declared rfl
    have locals : Reports (repetitions params.scope _ (subroutine.locals.map fun item => item.name))
        (params.declareAll .local subroutine.locals) :=
      reports_fold (fun item : Variable => item.name) (fun item => item.type) (fun _ => .local)
        paramsKnow
    rw [title, List.map_append, List.map_map] at locals
    rw [List.map_map]
    exact locals.finish fun routine _ => reports_pure _
  have start := SymbolTable.knows_nil (ClassScope.qualify known.name subroutine.name.node)
  unfold Scope.ofSubroutine
  dsimp only
  by_cases isMethod : subroutine.kind = .method
  · rw [if_pos isMethod]
    have first : Reports [] (SymbolTable.declare _ ⟨Scope.receiverName, subroutine.name.span⟩ _ _) :=
      reports_declare start _ (.object known.name) .argument
    refine first.bind fun receiver declared => ?_
    have own := later (start.declare declared)
    rw [scope_of_declare declared] at own
    have same : repetitions (ClassScope.qualify known.name subroutine.name.node)
        [Scope.receiverName] subroutine.declaredNames =
        repetitions (ClassScope.qualify known.name subroutine.name.node) []
          subroutine.declaredNames :=
      repetitions_congr fun name member => by simp [plain name member]
    rw [← same]
    exact own
  · rw [if_neg isMethod]
    exact later start

end Scopes

/-! ## Statements -/

/-- The fault of a use of a name that a scope does not know. -/
def Use.unknownIn (scope : Scope) : Use → List (Spanned Fault)
  | .variable name =>
    if (scope.lookup? name.node).isSome then []
    else [⟨.undeclaredVariable scope.routine.scope name.node, name.span⟩]
  | .subroutine name =>
    if (scope.cls.subroutines[name.node]?).isSome then []
    else [⟨.unknownSubroutine scope.cls.name name.node, name.span⟩]

section Uses

variable {α β : Type} {runtime : RuntimeNames} {scope : Scope} {uses others : List Use}
variable {first : Outcome α} {next : α → Outcome β}

/-- An outcome reports the first of the uses that a scope does not know. -/
def Checks (scope : Scope) (uses : List Use) (outcome : Outcome α) : Prop :=
  Reports (uses.flatMap (Use.unknownIn scope)) outcome

/-- The uses of the first step come before those of what depends on it. -/
theorem Checks.bind (own : Checks scope uses first)
    (after : ∀ value, Checks scope others (next value)) :
    Checks scope (uses ++ others) (first >>= next) := by
  rw [Checks, List.flatMap_append]
  exact Reports.bind own fun value _ => after value

/-- A step behind which nothing is used. -/
theorem Checks.finish (own : Checks scope uses first)
    (after : ∀ value, Checks scope [] (next value)) : Checks scope uses (first >>= next) :=
  Reports.finish own fun value _ => after value

/-- A success uses nothing. -/
theorem checks_pure (value : α) : Checks scope [] (pure value : Outcome α) := rfl

/-- A variable that must be declared is used. -/
theorem checks_resolve (name : Name) : Checks scope [.variable name] (scope.resolve name) := by
  rw [Checks, List.flatMap_singleton, Use.unknownIn, Scope.resolve]
  cases scope.lookup? name.node <;> rfl

/-- The subroutine of a call without a receiver is used. -/
theorem checks_callee (receiver : Option Name) (callee : Name) :
    Checks scope (callUses receiver callee) (scope.callee receiver callee) := by
  unfold Scope.callee callUses
  cases receiver with
  | some receiver =>
    dsimp only
    split
    · exact checks_pure _
    · exact checks_pure _
  | none =>
    dsimp only
    rw [Checks, List.flatMap_singleton, Use.unknownIn]
    cases scope.cls.subroutines[callee.node]? with
    | none => rfl
    | some kind => cases kind <;> rfl

mutual

/-- The commands of an expression report the first name that is not known. -/
theorem checks_expr (expr : Expr) : Checks scope expr.uses (expr.commands runtime scope) := by
  cases expr with
  | binary op left right span =>
    rw [Expr.uses, Expr.commands]
    refine (checks_expr left).bind fun leftCode => ?_
    exact (checks_expr right).finish fun rightCode => checks_pure _
  | unary op operand span =>
    rw [Expr.uses, Expr.commands]
    exact (checks_expr operand).finish fun code => checks_pure _
  | boolean value span =>
    rw [Expr.uses]
    cases value <;> exact checks_pure _
  | «variable» name span =>
    rw [Expr.uses, Expr.commands]
    exact (checks_resolve ⟨name, span⟩).finish fun entry => checks_pure _
  | element array index span =>
    rw [Expr.uses, Expr.commands]
    refine (checks_expr index).bind fun code => ?_
    exact (checks_resolve array).finish fun entry => checks_pure _
  | call receiver callee args span =>
    rw [Expr.uses, Expr.commands]
    refine (checks_callee receiver callee).bind fun target => ?_
    exact (checks_arguments args).finish fun code => checks_pure _
  | group inner span =>
    rw [Expr.uses, Expr.commands]
    exact checks_expr inner
  | integer | string | null | this =>
    rw [Expr.uses]
    exact checks_pure _

/-- The commands of arguments report the first name that is not known. -/
theorem checks_arguments (args : List Expr) :
    Checks scope (Expr.allUses args) (argumentCommands runtime scope args) := by
  cases args with
  | nil => exact checks_pure _
  | cons arg rest =>
    rw [Expr.allUses, argumentCommands]
    refine (checks_expr arg).bind fun code => ?_
    exact (checks_arguments rest).finish fun others => checks_pure _

end

mutual

/-- The commands of a statement report the first name that is not known. -/
theorem checks_stmt (stmt : Stmt) (number : Nat) :
    Checks scope stmt.uses (stmt.commands runtime scope number) := by
  cases stmt with
  | assign target value span =>
    rw [Stmt.uses, Stmt.commands]
    refine (checks_expr value).bind fun code => ?_
    exact (checks_resolve target).finish fun entry => checks_pure _
  | assignElement array index value span =>
    rw [Stmt.uses, Stmt.commands]
    refine (checks_resolve array).bind fun entry => ?_
    refine (checks_expr index).bind fun indexCode => ?_
    exact (checks_expr value).finish fun valueCode => checks_pure _
  | branch condition thenBody elseBody span =>
    rw [Stmt.uses, Stmt.commands]
    refine (checks_expr condition).bind fun test => ?_
    refine (checks_body thenBody (number + 2)).bind fun thenMade => ?_
    exact (checks_body elseBody thenMade.2).finish fun elseMade => checks_pure _
  | loop condition body span =>
    rw [Stmt.uses, Stmt.commands]
    refine (checks_expr condition).bind fun test => ?_
    exact (checks_body body (number + 2)).finish fun made => checks_pure _
  | call receiver callee args span =>
    rw [Stmt.uses, Stmt.commands]
    refine (checks_callee receiver callee).bind fun target => ?_
    exact (checks_arguments args).finish fun code => checks_pure _
  | leave result span =>
    cases result with
    | none => exact checks_pure _
    | some value =>
      rw [Stmt.uses, Stmt.commands]
      exact (checks_expr value).finish fun code => checks_pure _

/-- The commands of statements report the first name that is not known. -/
theorem checks_body (stmts : List Stmt) (number : Nat) :
    Checks scope (Stmt.bodyUses stmts) (bodyCommands runtime scope number stmts) := by
  cases stmts with
  | nil => exact checks_pure _
  | cons stmt rest =>
    rw [Stmt.bodyUses, bodyCommands]
    refine (checks_stmt stmt number).bind fun made => ?_
    exact (checks_body rest made.2).finish fun others => checks_pure _

end

end Uses

/-! ## Classes -/

section Classes

variable {cls : Class} {known : ClassScope} {subroutine : Subroutine} {scope : Scope}

/-- A class knows a subroutine exactly if one has the name. -/
theorem kindOf?_isSome (cls : Class) (name : String) :
    (cls.kindOf? name).isSome = true ↔ name ∈ cls.subroutineNames.map Spanned.node := by
  rw [Class.kindOf?, Option.isSome_map, List.find?_isSome, Class.subroutineNames, List.map_map,
    List.mem_map]
  simp

/-- Something is said of a name exactly if it is declared. -/
theorem declared?_isSome (declarations : List Declaration) (name : String) :
    (declared? declarations name).isSome = true ↔ name ∈ declarations.map Declaration.name := by
  by_cases member : name ∈ declarations.map Declaration.name
  · obtain ⟨entry, known⟩ := exists_declared? member
    exact iff_of_true (Option.isSome_iff_exists.mpr ⟨entry, known⟩) member
  · rw [declared?_eq_none member]
    exact iff_of_false Bool.false_ne_true member

/-- The scope of a subroutine has its name in messages. -/
theorem scope_of_ofSubroutine (made : Scope.ofSubroutine known subroutine = .ok scope) :
    scope.routine.scope = ClassScope.qualify known.name subroutine.name.node := by
  have kept {title : String} {table final : SymbolTable} {storage : Storage}
      {declared : List Variable} (made : table.declareAll storage declared = .ok final)
      (own : table.scope = title) : final.scope = title :=
    foldlM_invariant (fun table : SymbolTable => table.scope = title)
      (fun step same => (scope_of_declare step).trans same) made own
  have later {receiver : SymbolTable}
      (own : receiver.scope = ClassScope.qualify known.name subroutine.name.node)
      (declared : (do
        let params ← receiver.declareAll .argument subroutine.params
        let routine ← params.declareAll .local subroutine.locals
        return { cls := known, routine } : Outcome Scope) = .ok scope) :
      scope.routine.scope = ClassScope.qualify known.name subroutine.name.node := by
    obtain ⟨params, paramsMade, rest⟩ := bind_eq_ok.mp declared
    obtain ⟨routine, routineMade, result⟩ := bind_eq_ok.mp rest
    obtain rfl := Except.ok.inj result
    exact kept routineMade (kept paramsMade own)
  unfold Scope.ofSubroutine at made
  dsimp only at made
  by_cases isMethod : subroutine.kind = .method
  · rw [if_pos isMethod] at made
    obtain ⟨receiver, declared, rest⟩ := bind_eq_ok.mp made
    exact later (scope_of_declare declared) rest
  · rw [if_neg isMethod] at made
    exact later rfl made

/-- The names that a subroutine declares are its declarations besides the receiver. -/
theorem mem_declarations_iff {className name : String} (other : name ≠ Scope.receiverName) :
    name ∈ (subroutine.declarations className).map Declaration.name ↔
      name ∈ subroutine.declaredNames.map Spanned.node := by
  have same : (subroutine.declarations className).map Declaration.name =
      (if subroutine.kind = .method then [Scope.receiverName] else []) ++
        subroutine.declaredNames.map Spanned.node := by
    unfold Subroutine.declarations Subroutine.declaredNames
    by_cases isMethod : subroutine.kind = .method
    · simp [isMethod, Function.comp_def]
    · simp [isMethod, Function.comp_def]
  rw [same]
  by_cases isMethod : subroutine.kind = .method
  · simp [isMethod, other]
  · simp [isMethod]

/-- What a scope does not know of a use is what is not declared. -/
theorem unknownIn_eq (madeClass : ClassScope.ofClass cls = .ok known)
    (made : Scope.ofSubroutine known subroutine = .ok scope) {use : Use}
    (plain : use.name.node ≠ Scope.receiverName) :
    use.unknownIn scope =
      if use.Declared cls subroutine then [] else [use.fault cls subroutine] := by
  obtain ⟨className, varsKnow, kinds⟩ := knows_of_ofClass madeClass
  obtain ⟨rfl, routineKnows⟩ := knows_of_ofSubroutine made
  cases use with
  | «variable» name =>
    have title := scope_of_ofSubroutine made
    rw [className] at title
    have declared : (scope.lookup? name.node).isSome = true ↔
        (Use.variable name).Declared cls subroutine := by
      have inRoutine := @mem_declarations_iff subroutine scope.cls.name name.node plain
      have inClass : cls.declarations.map Declaration.name =
          cls.variableNames.map Spanned.node := by
        simp [Class.declarations, Class.variableNames, Function.comp_def]
      rw [Scope.lookup?, Option.isSome_or, Bool.or_eq_true, routineKnows.get, varsKnow.get,
        declared?_isSome, declared?_isSome, inRoutine, inClass]
      rfl
    rw [Use.unknownIn, Use.fault, title]
    simp only [declared]
  | subroutine name =>
    have declared : (scope.cls.subroutines[name.node]?).isSome = true ↔
        (Use.subroutine name).Declared cls subroutine := by
      rw [kinds]
      exact kindOf?_isSome cls name.node
    rw [Use.unknownIn, Use.fault, className]
    simp only [declared]

/-- The names of a subroutine that its scopes are asked about. -/
def Subroutine.names (subroutine : Subroutine) : List Name :=
  subroutine.declaredNames ++ (Stmt.bodyUses subroutine.body).map Use.name

/-- The names of a class that its scopes are asked about. -/
def Class.names (cls : Class) : List Name :=
  cls.variableNames ++ (cls.subroutineNames ++ cls.subroutines.flatMap Subroutine.names)

/-- A subroutine without the name of the receiver reports its first fault. -/
theorem reports_subroutine (runtime : RuntimeNames) (number : Nat)
    (madeClass : ClassScope.ofClass cls = .ok known)
    (plain : ∀ name ∈ subroutine.names, name.node ≠ Scope.receiverName) :
    Reports (subroutine.faults cls) (subroutine.commands runtime known number) := by
  have className := (knows_of_ofClass madeClass).1
  have declared := @reports_ofSubroutine known subroutine fun name member =>
    plain name (List.mem_append_left _ member)
  rw [className] at declared
  refine declared.bind fun scope made => ?_
  have body : Checks scope (Stmt.bodyUses subroutine.body)
      (bodyCommands runtime scope number subroutine.body) := checks_body subroutine.body number
  have faults : (Stmt.bodyUses subroutine.body).flatMap (Use.unknownIn scope) =
      ((Stmt.bodyUses subroutine.body).filter fun use => ¬ use.Declared cls subroutine).map
        (Use.fault cls subroutine) := by
    have each : ∀ use ∈ Stmt.bodyUses subroutine.body, use.unknownIn scope =
        if use.Declared cls subroutine then [] else [use.fault cls subroutine] :=
      fun use member => unknownIn_eq madeClass made
        (plain use.name (List.mem_append_right _ (List.mem_map_of_mem member)))
    rw [List.flatMap_congr each]
    generalize Stmt.bodyUses subroutine.body = uses
    induction uses with
    | nil => rfl
    | cons use rest ih =>
      rw [List.flatMap_cons, ih]
      by_cases known : use.Declared cls subroutine
      · simp [known]
      · simp [known]
  rw [Checks, faults] at body
  exact body.finish fun made _ => reports_pure _

/-- Subroutines without the name of the receiver report their first fault. -/
theorem reports_subroutines (runtime : RuntimeNames) (number : Nat)
    (madeClass : ClassScope.ofClass cls = .ok known) {subroutines : List Subroutine}
    (plain : ∀ subroutine ∈ subroutines, ∀ name ∈ subroutine.names,
      name.node ≠ Scope.receiverName) :
    Reports (subroutines.flatMap (Subroutine.faults cls))
      (subroutineCommands runtime known number subroutines) := by
  induction subroutines generalizing number with
  | nil => exact reports_pure _
  | cons subroutine rest ih =>
    rw [List.flatMap_cons, subroutineCommands]
    have own := reports_subroutine runtime number madeClass (plain subroutine List.mem_cons_self)
    refine own.bind fun made _ => ?_
    exact (ih made.2 fun other member => plain other (List.mem_cons_of_mem _ member)).finish
      fun others _ => reports_pure _

/-- A class without the name of the receiver reports its first fault, and it is compiled if there is
none. -/
theorem reports_class (runtime : RuntimeNames)
    (plain : ∀ name ∈ cls.names, name.node ≠ Scope.receiverName) :
    Reports cls.faults (cls.commands runtime) := by
  rw [Class.faults, ← List.append_assoc]
  refine (reports_ofClass cls).bind fun known made => ?_
  refine reports_subroutines runtime 0 made fun subroutine member name own => ?_
  have inside := List.mem_flatMap.mpr ⟨subroutine, member, own⟩
  exact plain name (List.mem_append_right _ (List.mem_append_right _ inside))

end Classes

/-! ## Ill-scoped classes -/

section IllScoped

variable {cls : Class}

/-- A subroutine declares a name twice or uses a name without a declaration. -/
def Subroutine.IllScoped (cls : Class) (subroutine : Subroutine) : Prop :=
  ¬ (subroutine.declaredNames.map Spanned.node).Nodup ∨
    ∃ use ∈ Stmt.bodyUses subroutine.body, ¬ use.Declared cls subroutine

/-- Two variables of a class share a name, two of its subroutines do, or one of its subroutines is
ill-scoped. -/
def Class.IllScoped (cls : Class) : Prop :=
  ¬ (cls.variableNames.map Spanned.node).Nodup ∨
    ¬ (cls.subroutineNames.map Spanned.node).Nodup ∨
      ∃ subroutine ∈ cls.subroutines, subroutine.IllScoped cls

instance (cls : Class) (subroutine : Subroutine) : Decidable (subroutine.IllScoped cls) :=
  inferInstanceAs (Decidable (_ ∨ _))

instance (cls : Class) : Decidable cls.IllScoped :=
  inferInstanceAs (Decidable (_ ∨ _ ∨ _))

/-- A subroutine is ill-scoped exactly if it has a fault. -/
theorem Subroutine.illScoped_iff (subroutine : Subroutine) :
    subroutine.IllScoped cls ↔ subroutine.faults cls ≠ [] := by
  have repeated := @repetitions_eq_nil
    (ClassScope.qualify cls.name.node subroutine.name.node) [] subroutine.declaredNames .nil
  rw [List.nil_append] at repeated
  rw [Subroutine.IllScoped, Subroutine.faults, ← repeated, Ne, List.append_eq_nil_iff,
    not_and_or, List.map_eq_nil_iff, List.filter_eq_nil_iff]
  simp

/-- A class is ill-scoped exactly if it has a fault. -/
theorem Class.illScoped_iff (cls : Class) : cls.IllScoped ↔ cls.faults ≠ [] := by
  have vars := @repetitions_eq_nil (ClassScope.title cls.name.node) [] cls.variableNames .nil
  have subroutines :=
    @repetitions_eq_nil (ClassScope.title cls.name.node) [] cls.subroutineNames .nil
  rw [List.nil_append] at vars subroutines
  have inside : (∃ subroutine ∈ cls.subroutines, subroutine.IllScoped cls) ↔
      ¬ cls.subroutines.flatMap (Subroutine.faults cls) = [] := by
    rw [List.flatMap_eq_nil_iff]
    simp only [Subroutine.illScoped_iff]
    push Not
    rfl
  rw [Class.IllScoped, Class.faults, ← vars, ← subroutines, inside, Ne, List.append_eq_nil_iff,
    List.append_eq_nil_iff, not_and_or, not_and_or]

end IllScoped

end JackToolchain.Jack
