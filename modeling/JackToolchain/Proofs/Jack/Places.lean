import JackToolchain.Proofs.Jack.Emission
import JackToolchain.Proofs.Jack.Spellable

/-!
# Commands without places

The commands of a class do not depend on the places in its tree: a tree without places has the same
commands, or the same fault.
-/
namespace JackToolchain.Jack

open Vm (RuntimeNames)

section Bodies

variable (runtime : RuntimeNames) (scope : Scope)

/-- What is resolved does not depend on the place of the name. -/
theorem Scope.resolve_unplaced (name other : Name) (same : name.node = other.node) :
    (scope.resolve name).mapError Spanned.node = (scope.resolve other).mapError Spanned.node := by
  unfold Scope.resolve
  rw [same]
  cases scope.lookup? other.node <;> rfl

/-- What is called does not depend on the places of the names. -/
theorem Scope.callee_unplaced (receiver : Option Name) (name : Name) :
    (scope.callee (receiver.map unplacedName) (unplacedName name)).mapError Spanned.node =
      (scope.callee receiver name).mapError Spanned.node := by
  cases receiver with
  | some receiver =>
    simp only [Option.map_some, Scope.callee, unplacedName]
  | none =>
    simp only [Option.map_none, Scope.callee, unplacedName]
    cases scope.cls.subroutines[name.node]? with
    | none => rfl
    | some kind => cases kind <;> rfl

mutual

/-- The commands of an expression do not depend on its places. -/
theorem Expr.commands_unplaced (expr : Expr) :
    (expr.unplaced.commands runtime scope).mapError Spanned.node =
      (expr.commands runtime scope).mapError Spanned.node := by
  cases expr with
  | binary op left right span =>
    simp only [Expr.unplaced, Expr.commands, mapError_bind, left.commands_unplaced,
      right.commands_unplaced]
  | unary op operand span =>
    simp only [Expr.unplaced, Expr.commands, mapError_bind, operand.commands_unplaced]
  | element array index span =>
    simp only [Expr.unplaced, Expr.commands, mapError_bind, index.commands_unplaced,
      scope.resolve_unplaced (unplacedName array) array rfl]
  | group inner span =>
    simp only [Expr.unplaced, Expr.commands, inner.commands_unplaced]
  | «variable» name span =>
    simp only [Expr.unplaced, Expr.commands, mapError_bind,
      scope.resolve_unplaced ⟨name, .nowhere⟩ ⟨name, span⟩ rfl]
  | call receiver callee args span =>
    have length : (Expr.allUnplaced args).length = args.length := by
      rw [Expr.allUnplaced_eq_map, List.length_map]
    simp only [Expr.unplaced, Expr.commands, mapError_bind, scope.callee_unplaced,
      Expr.argumentCommands_unplaced args, length]
  | boolean value span => cases value <;> rfl
  | _ => rfl

/-- The commands of arguments do not depend on their places. -/
theorem Expr.argumentCommands_unplaced (args : List Expr) :
    (argumentCommands runtime scope (Expr.allUnplaced args)).mapError Spanned.node =
      (argumentCommands runtime scope args).mapError Spanned.node := by
  cases args with
  | nil => rfl
  | cons arg rest =>
    simp only [Expr.allUnplaced, argumentCommands, mapError_bind, arg.commands_unplaced,
      Expr.argumentCommands_unplaced rest]

end

mutual

/-- The commands of a statement do not depend on its places. -/
theorem Stmt.commands_unplaced (stmt : Stmt) (number : Nat) :
    (stmt.unplaced.commands runtime scope number).mapError Spanned.node =
      (stmt.commands runtime scope number).mapError Spanned.node := by
  cases stmt with
  | assign target value span =>
    simp only [Stmt.unplaced, Stmt.commands, mapError_bind, value.commands_unplaced,
      scope.resolve_unplaced (unplacedName target) target rfl]
  | assignElement array index value span =>
    simp only [Stmt.unplaced, Stmt.commands, mapError_bind, index.commands_unplaced,
      value.commands_unplaced, scope.resolve_unplaced (unplacedName array) array rfl]
  | branch condition thenBody elseBody span =>
    simp only [Stmt.unplaced, Stmt.commands, mapError_bind, condition.commands_unplaced,
      Stmt.bodyCommands_unplaced thenBody, Stmt.bodyCommands_unplaced elseBody]
  | loop condition body span =>
    simp only [Stmt.unplaced, Stmt.commands, mapError_bind, condition.commands_unplaced,
      Stmt.bodyCommands_unplaced body]
  | call receiver callee args span =>
    have length : (Expr.allUnplaced args).length = args.length := by
      rw [Expr.allUnplaced_eq_map, List.length_map]
    simp only [Stmt.unplaced, Stmt.commands, mapError_bind, scope.callee_unplaced,
      Expr.argumentCommands_unplaced, length]
  | leave result span =>
    cases result with
    | none => rfl
    | some value =>
      simp only [Stmt.unplaced, Option.map_some, Stmt.commands, mapError_bind,
        value.commands_unplaced]

/-- The commands of statements do not depend on their places. -/
theorem Stmt.bodyCommands_unplaced (stmts : List Stmt) (number : Nat) :
    (bodyCommands runtime scope number (Stmt.allUnplaced stmts)).mapError Spanned.node =
      (bodyCommands runtime scope number stmts).mapError Spanned.node := by
  cases stmts with
  | nil => rfl
  | cons stmt rest =>
    simp only [Stmt.allUnplaced, bodyCommands, mapError_bind, stmt.commands_unplaced,
      Stmt.bodyCommands_unplaced rest]

end

end Bodies

section Classes

/-- What is declared does not depend on the place of the name. -/
theorem SymbolTable.declare_unplaced (table : SymbolTable) (name : Name) (type : JackType)
    (storage : Storage) : (table.declare (unplacedName name) type storage).mapError Spanned.node =
      (table.declare name type storage).mapError Spanned.node := by
  have node : (unplacedName name).node = name.node := rfl
  unfold SymbolTable.declare
  rw [node]
  by_cases old : table.entries.contains name.node = true
  · rw [if_pos old, if_pos old]
    rfl
  · rw [if_neg old, if_neg old]

/-- What is declared in a list does not depend on the places of the names. -/
theorem SymbolTable.declareAll_unplaced (table : SymbolTable) (storage : Storage)
    (declared : List Variable) :
    (table.declareAll storage (declared.map Variable.unplaced)).mapError Spanned.node =
      (table.declareAll storage declared).mapError Spanned.node :=
  mapError_foldlM (fun table item => table.declare_unplaced item.name item.type storage) declared
    table

/-- The scope of a class does not depend on its places. -/
theorem ClassScope.ofClass_unplaced (cls : Class) :
    (ClassScope.ofClass cls.unplaced).mapError Spanned.node = (ClassScope.ofClass cls).mapError Spanned.node := by
  have vars (start : SymbolTable) : ((cls.vars.map ClassVariable.unplaced).foldlM
      (fun (table : SymbolTable) item =>
        table.declare item.name item.type item.storage.storage) start).mapError Spanned.node =
      (cls.vars.foldlM (fun (table : SymbolTable) item =>
        table.declare item.name item.type item.storage.storage) start).mapError Spanned.node := by
    apply mapError_foldlM
    intro table item
    exact table.declare_unplaced item.name item.type item.storage.storage
  have added (known : Std.HashMap String SubroutineKind) (subroutine : Subroutine) :
      (ClassScope.addSubroutine cls.name.node known subroutine.unplaced).mapError Spanned.node =
        (ClassScope.addSubroutine cls.name.node known subroutine).mapError Spanned.node := by
    have node : subroutine.unplaced.name.node = subroutine.name.node := rfl
    unfold ClassScope.addSubroutine
    dsimp only
    rw [node]
    by_cases old : known.contains subroutine.name.node = true
    · rw [if_pos old, if_pos old]
      rfl
    · rw [if_neg old, if_neg old]
      rfl
  simp only [ClassScope.ofClass, Class.unplaced, unplacedName, mapError_bind, vars,
    mapError_foldlM added]

/-- The scope of a subroutine does not depend on its places. -/
theorem Scope.ofSubroutine_unplaced (known : ClassScope) (subroutine : Subroutine) :
    (Scope.ofSubroutine known subroutine.unplaced).mapError Spanned.node =
      (Scope.ofSubroutine known subroutine).mapError Spanned.node := by
  have receiver (table : SymbolTable) :
      (table.declare ⟨receiverName, .nowhere⟩ (.object known.name) .argument).mapError Spanned.node =
        (table.declare ⟨receiverName, subroutine.name.span⟩ (.object known.name)
          .argument).mapError Spanned.node := table.declare_unplaced ⟨receiverName, subroutine.name.span⟩ _ _
  have kind : subroutine.unplaced.kind = subroutine.kind := rfl
  unfold Scope.ofSubroutine
  rw [kind]
  by_cases isMethod : subroutine.kind = .method
  · simp only [if_pos isMethod, Subroutine.unplaced, unplacedName, mapError_bind,
      SymbolTable.declareAll_unplaced, receiver]
  · simp only [if_neg isMethod, Subroutine.unplaced, unplacedName, mapError_bind,
      SymbolTable.declareAll_unplaced]

variable (runtime : RuntimeNames)

/-- The commands of a subroutine do not depend on its places. -/
theorem Subroutine.commands_unplaced (known : ClassScope) (subroutine : Subroutine)
    (number : Nat) :
    (subroutine.unplaced.commands runtime known number).mapError Spanned.node =
      (subroutine.commands runtime known number).mapError Spanned.node := by
  simp only [Subroutine.commands, mapError_bind, Scope.ofSubroutine_unplaced]
  simp only [Subroutine.unplaced, unplacedName, Stmt.bodyCommands_unplaced]

/-- The commands of subroutines do not depend on their places. -/
theorem subroutineCommands_unplaced (known : ClassScope) (subroutines : List Subroutine)
    (number : Nat) :
    (subroutineCommands runtime known number (subroutines.map Subroutine.unplaced)).mapError Spanned.node =
      (subroutineCommands runtime known number subroutines).mapError Spanned.node := by
  induction subroutines generalizing number with
  | nil => rfl
  | cons subroutine rest ih =>
    simp only [List.map_cons, subroutineCommands, mapError_bind, Subroutine.commands_unplaced, ih]

/-- The commands of a class do not depend on its places. -/
theorem Class.commands_unplaced (cls : Class) :
    (cls.unplaced.commands runtime).mapError Spanned.node = (cls.commands runtime).mapError Spanned.node := by
  simp only [Class.commands, mapError_bind, ClassScope.ofClass_unplaced]
  simp only [Class.unplaced, subroutineCommands_unplaced]

/-- Classes that differ in their places only have the same commands. -/
theorem commands_of_unplaced_eq {cls other : Class} {code : List Vm.Command}
    (same : cls.unplaced = other.unplaced) (made : other.commands runtime = .ok code) :
    cls.commands runtime = .ok code := by
  refine mapError_eq_ok.mp (?_ : (cls.commands runtime).mapError Spanned.node = .ok code)
  rw [← cls.commands_unplaced, same, other.commands_unplaced, made]
  rfl

end Classes

end JackToolchain.Jack
