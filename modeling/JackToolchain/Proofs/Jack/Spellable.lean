import JackToolchain.Proofs.Jack.Spacing

/-!
# Spellable classes

The classes that have a text. Each lexeme of such a class can be written, only results have no type,
operators group as they bind, and expressions and blocks nest no deeper than the grammar allows. The
depth of an expression is the one the readers count: an operand is as deep as the operators that are
already folded in front of it. Two classes are the same up to places if they are equal without them.
-/
namespace JackToolchain.Jack

/-! ## Trees without places -/

/-- A name without its place. -/
def unplacedName (name : Name) : Name := ⟨name.node, .nowhere⟩

/-- Names of one text are one name without places. -/
theorem unplacedName_congr {first second : Name} (same : first.node = second.node) :
    unplacedName first = unplacedName second := by
  rw [unplacedName, unplacedName, same]

mutual

/-- An expression without places. -/
def Expr.unplaced : Expr → Expr
  | .binary op left right _ => .binary op left.unplaced right.unplaced .nowhere
  | .unary op operand _ => .unary op operand.unplaced .nowhere
  | .integer value _ => .integer value .nowhere
  | .string content _ => .string content .nowhere
  | .boolean value _ => .boolean value .nowhere
  | .null _ => .null .nowhere
  | .this _ => .this .nowhere
  | .variable name _ => .variable name .nowhere
  | .element array index _ => .element (unplacedName array) index.unplaced .nowhere
  | .call receiver callee args _ =>
    .call (receiver.map unplacedName) (unplacedName callee) (Expr.allUnplaced args) .nowhere
  | .group inner _ => .group inner.unplaced .nowhere

/-- Expressions without places. -/
def Expr.allUnplaced : List Expr → List Expr
  | [] => []
  | expr :: rest => expr.unplaced :: Expr.allUnplaced rest

end

mutual

/-- A statement without places. -/
def Stmt.unplaced : Stmt → Stmt
  | .assign target value _ => .assign (unplacedName target) value.unplaced .nowhere
  | .assignElement array index value _ =>
    .assignElement (unplacedName array) index.unplaced value.unplaced .nowhere
  | .branch condition thenBody elseBody _ =>
    .branch condition.unplaced (Stmt.allUnplaced thenBody) (Stmt.allUnplaced elseBody) .nowhere
  | .loop condition body _ => .loop condition.unplaced (Stmt.allUnplaced body) .nowhere
  | .call receiver callee args _ =>
    .call (receiver.map unplacedName) (unplacedName callee) (Expr.allUnplaced args) .nowhere
  | .leave result _ => .leave (result.map Expr.unplaced) .nowhere

/-- Statements without places. -/
def Stmt.allUnplaced : List Stmt → List Stmt
  | [] => []
  | stmt :: rest => stmt.unplaced :: Stmt.allUnplaced rest

end

/-- A class variable without places. -/
def ClassVariable.unplaced (item : ClassVariable) : ClassVariable :=
  { item with name := unplacedName item.name }

/-- A parameter or a local variable without places. -/
def Variable.unplaced (item : Variable) : Variable := { item with name := unplacedName item.name }

/-- A subroutine without places. -/
def Subroutine.unplaced (subroutine : Subroutine) : Subroutine where
  kind := subroutine.kind
  result := subroutine.result
  name := unplacedName subroutine.name
  params := subroutine.params.map Variable.unplaced
  locals := subroutine.locals.map Variable.unplaced
  body := Stmt.allUnplaced subroutine.body

/-- A class without places. -/
def Class.unplaced (cls : Class) : Class where
  name := unplacedName cls.name
  vars := cls.vars.map ClassVariable.unplaced
  subroutines := cls.subroutines.map Subroutine.unplaced

/-! ## Depth -/

/-- The number of operators that the chain of an expression folds. -/
def Expr.folds : Expr → Nat
  | .binary _ left _ _ => left.folds + 1
  | _ => 0

mutual

/-- The number of levels that an expression takes besides its own. -/
def Expr.levels : Expr → Nat
  | .binary _ left right _ => max left.levels (left.folds + 1 + right.levels)
  | .unary _ operand _ => operand.levels + 1
  | .integer _ _ | .string _ _ | .boolean _ _ | .null _ | .this _ | .variable _ _ => 0
  | .element _ index _ => index.levels + 1
  | .call _ _ args _ => Expr.allLevels args
  | .group inner _ => inner.levels + 1

/-- The number of levels that expressions take. -/
def Expr.allLevels : List Expr → Nat
  | [] => 0
  | expr :: rest => max (expr.levels + 1) (Expr.allLevels rest)

end

mutual

/-- The number of levels that a statement takes. -/
def Stmt.levels : Stmt → Nat
  | .assign _ value _ => value.levels + 1
  | .assignElement _ index value _ => max (index.levels + 1) (value.levels + 1)
  | .branch condition thenBody elseBody _ =>
    max (condition.levels + 1) (max (Stmt.allLevels thenBody + 1) (Stmt.allLevels elseBody + 1))
  | .loop condition body _ => max (condition.levels + 1) (Stmt.allLevels body + 1)
  | .call _ _ args _ => Expr.allLevels args
  | .leave none _ => 0
  | .leave (some result) _ => result.levels + 1

/-- The number of levels that statements take. -/
def Stmt.allLevels : List Stmt → Nat
  | [] => 0
  | stmt :: rest => max stmt.levels (Stmt.allLevels rest)

end

/-- A class that the language can write. -/
structure Class.Spellable (cls : Class) : Prop where
  /-- Each of its lexemes can be written. -/
  words : ∀ lexeme ∈ cls.lexemes, lexeme.Writable
  /-- Every class variable has a type. -/
  classVars : ∀ item ∈ cls.vars, item.type ≠ .void
  /-- Every parameter and every local variable has a type. -/
  ownVars : ∀ subroutine ∈ cls.subroutines, ∀ item ∈ subroutine.params ++ subroutine.locals,
    item.type ≠ .void
  /-- Its operators group as they bind. -/
  grouped : cls.Grouped
  /-- No expression and no block is too deep. -/
  shallow : ∀ subroutine ∈ cls.subroutines, Stmt.allLevels subroutine.body ≤ nestingLimit

/-! ## Lists -/

section Lists

/-- Expressions without places, one by one. -/
theorem Expr.allUnplaced_eq_map (exprs : List Expr) :
    Expr.allUnplaced exprs = exprs.map Expr.unplaced := by
  induction exprs with
  | nil => rfl
  | cons expr rest ih => rw [Expr.allUnplaced, ih, List.map_cons]

/-- Statements without places, one by one. -/
theorem Stmt.allUnplaced_eq_map (stmts : List Stmt) :
    Stmt.allUnplaced stmts = stmts.map Stmt.unplaced := by
  induction stmts with
  | nil => rfl
  | cons stmt rest ih => rw [Stmt.allUnplaced, ih, List.map_cons]

/-- Each expression takes no more levels than all of them. -/
theorem Expr.levels_lt_of_mem {exprs : List Expr} {expr : Expr} (member : expr ∈ exprs) :
    expr.levels < Expr.allLevels exprs := by
  induction exprs with
  | nil => contradiction
  | cons first rest ih =>
    rw [Expr.allLevels]
    rcases List.mem_cons.mp member with rfl | inside
    · omega
    · have own := ih inside
      omega

/-- Each statement takes no more levels than all of them. -/
theorem Stmt.levels_le_of_mem {stmts : List Stmt} {stmt : Stmt} (member : stmt ∈ stmts) :
    stmt.levels ≤ Stmt.allLevels stmts := by
  induction stmts with
  | nil => contradiction
  | cons first rest ih =>
    rw [Stmt.allLevels]
    rcases List.mem_cons.mp member with rfl | inside
    · exact Nat.le_max_left _ _
    · exact (ih inside).trans (Nat.le_max_right _ _)

/-- Values that agree one by one without places agree as lists. -/
theorem map_eq_of_forall₂ {α β γ : Type} {change : α → γ} {other : β → γ} {items : List β}
    {values : List α}
    (all : List.Forall₂ (fun item value => change value = other item) items values) :
    values.map change = items.map other := by
  rw [← List.forall₂_eq_eq_eq, List.forall₂_map_left_iff, List.forall₂_map_right_iff]
  exact all.flip

end Lists

end JackToolchain.Jack
