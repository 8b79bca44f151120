import JackToolchain.Proofs.Jack.Grammar
import JackToolchain.Proofs.Jack.Levels
import JackToolchain.Proofs.Jack.Rereading
import Mathlib.Order.Bounds.Defs
import Mathlib.Tactic.Ring

/-!
# Heights of classes

The height of a node of a class is the number of blocks, groups, indices, arguments, signs and
operators around it. A reader gives the levels of a chain of operators back at the end of the
chain, but the first operand of the chain was read before, with all the levels that were left, and
the chain then stands around it. So the levels that the language allows do not bound the height by
themselves: at every level of nesting a whole chain may come on top.
-/
namespace JackToolchain.Jack

/-! ## Heights -/

mutual

/-- The greatest number of groups, indices, arguments, signs and operators around a part of an
expression. -/
def Expr.height : Expr → Nat
  | .binary _ left right _ => max left.height right.height + 1
  | .unary _ operand _ => operand.height + 1
  | .integer _ _ | .string _ _ | .boolean _ _ | .null _ | .this _ | .variable _ _ => 0
  | .element _ index _ => index.height + 1
  | .call _ _ args _ => Expr.argsHeight args
  | .group inner _ => inner.height + 1

/-- The greatest number of them around a part of an argument, the argument included. -/
def Expr.argsHeight : List Expr → Nat
  | [] => 0
  | arg :: rest => max (arg.height + 1) (Expr.argsHeight rest)

end

mutual

/-- The greatest number of blocks and of what stands around parts of expressions around a part of a
statement. -/
def Stmt.height : Stmt → Nat
  | .assign _ value _ => value.height
  | .assignElement _ index value _ => max (index.height + 1) value.height
  | .branch condition thenBody elseBody _ =>
    max condition.height (max (Stmt.blockHeight thenBody) (Stmt.blockHeight elseBody))
  | .loop condition body _ => max condition.height (Stmt.blockHeight body)
  | .call _ _ args _ => Expr.argsHeight args
  | .leave none _ => 0
  | .leave (some result) _ => result.height

/-- The greatest number of them around a part of a statement of a block, the block included. -/
def Stmt.blockHeight : List Stmt → Nat
  | [] => 0
  | stmt :: rest => max (stmt.height + 1) (Stmt.blockHeight rest)

end

/-- The greatest number of levels between the body of a subroutine of a class and a node in it. -/
def Class.height (cls : Class) : Nat :=
  ((cls.subroutines.flatMap Subroutine.body).map Stmt.height).foldr max 0

/-! ## The bound -/

section Bound

variable {levels : Nat}

/-- The greatest height of an expression that takes so many levels besides its own: a chain of as
many operators around a group, with the greatest height for one level less in the group. -/
def tallest : Nat → Nat
  | 0 => 0
  | levels + 1 => tallest levels + levels + 2

/-- An expression may be as high as it takes levels. -/
theorem le_tallest (levels : Nat) : levels ≤ tallest levels := by
  induction levels with
  | zero => exact Nat.le_refl 0
  | succ levels ih =>
    rw [tallest]
    omega

/-- An expression folds no more operators than it takes levels. -/
theorem Expr.folds_le_levels (expr : Expr) : expr.folds ≤ expr.levels := by
  cases expr with
  | binary op left right span =>
    rw [Expr.folds, Expr.levels]
    omega
  | _ => exact Nat.zero_le _

/-- A part with one level less leaves room for the construct around it and for a whole chain around
that. -/
theorem Expr.height_in_part {part : Expr} {fewer : Nat} (inside : part.levels ≤ fewer)
    (own : part.height + fewer ≤ tallest fewer + part.folds) :
    part.height + 1 + (fewer + 1) ≤ tallest (fewer + 1) := by
  have folds := part.folds_le_levels
  rw [tallest]
  omega

mutual

/-- An expression is no higher than its levels allow, and it is lower by every operator that its
chain could still fold. -/
theorem Expr.height_add_le (expr : Expr) {levels : Nat} (fits : expr.levels ≤ levels) :
    expr.height + levels ≤ tallest levels + expr.folds := by
  have flat (own : expr.height = 0) : expr.height + levels ≤ tallest levels + expr.folds := by
    have least := le_tallest levels
    omega
  cases expr with
  | binary op left right span =>
    rw [Expr.levels] at fits
    obtain ⟨fewer, rfl⟩ : ∃ fewer, levels = fewer + 1 := ⟨levels - 1, by omega⟩
    have leftHeight := left.height_add_le (by omega : left.levels ≤ fewer + 1)
    have inside : right.levels ≤ fewer := by omega
    have rightHeight := Expr.height_in_part inside (right.height_add_le inside)
    rw [Expr.height, Expr.folds]
    omega
  | unary op operand span =>
    obtain ⟨fewer, rfl⟩ := Nat.exists_eq_add_one.mpr (Nat.lt_of_lt_of_le (Nat.succ_pos _) fits)
    have inside : operand.levels ≤ fewer := Nat.le_of_succ_le_succ fits
    exact Expr.height_in_part inside (operand.height_add_le inside)
  | element array index span =>
    obtain ⟨fewer, rfl⟩ := Nat.exists_eq_add_one.mpr (Nat.lt_of_lt_of_le (Nat.succ_pos _) fits)
    have inside : index.levels ≤ fewer := Nat.le_of_succ_le_succ fits
    exact Expr.height_in_part inside (index.height_add_le inside)
  | group inner span =>
    obtain ⟨fewer, rfl⟩ := Nat.exists_eq_add_one.mpr (Nat.lt_of_lt_of_le (Nat.succ_pos _) fits)
    have inside : inner.levels ≤ fewer := Nat.le_of_succ_le_succ fits
    exact Expr.height_in_part inside (inner.height_add_le inside)
  | call receiver callee args span => exact Expr.argsHeight_add_le args fits
  | _ => exact flat rfl

/-- Arguments are no higher than their levels allow. -/
theorem Expr.argsHeight_add_le (args : List Expr) {levels : Nat}
    (fits : Expr.allLevels args ≤ levels) : Expr.argsHeight args + levels ≤ tallest levels := by
  cases args with
  | nil =>
    rw [Expr.argsHeight, Nat.zero_add]
    exact le_tallest levels
  | cons arg rest =>
    rw [Expr.allLevels] at fits
    obtain ⟨fewer, rfl⟩ : ∃ fewer, levels = fewer + 1 := ⟨levels - 1, by omega⟩
    have inside : arg.levels ≤ fewer := by omega
    have first := Expr.height_in_part inside (arg.height_add_le inside)
    have others := Expr.argsHeight_add_le rest (by omega : Expr.allLevels rest ≤ fewer + 1)
    rw [Expr.argsHeight]
    omega

end

/-- An expression with its own level is no higher than the levels below allow. -/
theorem Expr.height_le {expr : Expr} (fits : expr.levels ≤ levels) :
    expr.height ≤ tallest levels := by
  have height := expr.height_add_le fits
  have folds := expr.folds_le_levels
  omega

/-- Arguments are at most one higher than an expression with one level less. -/
theorem Expr.argsHeight_le {args : List Expr} (fits : Expr.allLevels args ≤ levels + 1) :
    Expr.argsHeight args ≤ tallest levels + 1 := by
  have height := Expr.argsHeight_add_le args fits
  rw [tallest] at height
  omega

/-- A statement that takes no levels has no height. -/
theorem Stmt.height_eq_zero {stmt : Stmt} (flat : stmt.levels = 0) : stmt.height = 0 := by
  cases stmt with
  | call receiver callee args span =>
    cases args with
    | nil => rfl
    | cons arg rest =>
      rw [Stmt.levels, Expr.allLevels] at flat
      omega
  | leave result span =>
    cases result with
    | none => rfl
    | some value => contradiction
  | _ =>
    rw [Stmt.levels] at flat
    omega

mutual

/-- A statement is at most one higher than an expression with one level less. -/
theorem Stmt.height_le (stmt : Stmt) {levels : Nat} (fits : stmt.levels ≤ levels + 1) :
    stmt.height ≤ tallest levels + 1 := by
  cases stmt with
  | assign target value span =>
    exact Nat.le_succ_of_le (Expr.height_le (Nat.le_of_succ_le_succ fits))
  | assignElement array index value span =>
    rw [Stmt.levels] at fits
    have indexHeight := Expr.height_le (by omega : index.levels ≤ levels)
    have valueHeight := Expr.height_le (by omega : value.levels ≤ levels)
    rw [Stmt.height]
    omega
  | branch condition thenBody elseBody span =>
    rw [Stmt.levels] at fits
    have test := Expr.height_le (by omega : condition.levels ≤ levels)
    have first := Stmt.blockHeight_le thenBody (by omega : Stmt.allLevels thenBody ≤ levels)
    have second := Stmt.blockHeight_le elseBody (by omega : Stmt.allLevels elseBody ≤ levels)
    rw [Stmt.height]
    omega
  | loop condition body span =>
    rw [Stmt.levels] at fits
    have test := Expr.height_le (by omega : condition.levels ≤ levels)
    have inside := Stmt.blockHeight_le body (by omega : Stmt.allLevels body ≤ levels)
    rw [Stmt.height]
    omega
  | call receiver callee args span => exact Expr.argsHeight_le fits
  | leave result span =>
    cases result with
    | none => exact Nat.zero_le _
    | some value => exact Nat.le_succ_of_le (Expr.height_le (Nat.le_of_succ_le_succ fits))

/-- A block is at most one higher than an expression with as many levels. -/
theorem Stmt.blockHeight_le (stmts : List Stmt) {levels : Nat}
    (fits : Stmt.allLevels stmts ≤ levels) : Stmt.blockHeight stmts ≤ tallest levels + 1 := by
  cases stmts with
  | nil => exact Nat.zero_le _
  | cons stmt rest =>
    rw [Stmt.allLevels] at fits
    have others := Stmt.blockHeight_le rest (by omega : Stmt.allLevels rest ≤ levels)
    have first : stmt.height ≤ tallest levels := by
      cases levels with
      | zero => exact Nat.le_of_eq (Stmt.height_eq_zero (Nat.le_zero.mp (by omega)))
      | succ fewer =>
        have own := stmt.height_le (by omega : stmt.levels ≤ fewer + 1)
        rw [tallest]
        omega
    rw [Stmt.blockHeight]
    omega

end

/-- A class is no higher than each of its statements. -/
theorem Class.height_le {cls : Class} {bound : Nat}
    (each : ∀ own ∈ cls.subroutines, ∀ stmt ∈ own.body, stmt.height ≤ bound) :
    cls.height ≤ bound := by
  have all : ∀ stmt ∈ cls.subroutines.flatMap Subroutine.body, stmt.height ≤ bound := by
    intro stmt member
    obtain ⟨own, inside, there⟩ := List.mem_flatMap.mp member
    exact each own inside stmt there
  rw [Class.height]
  generalize cls.subroutines.flatMap Subroutine.body = stmts at all
  induction stmts with
  | nil => exact Nat.zero_le bound
  | cons stmt rest ih =>
    obtain ⟨first, others⟩ := List.forall_mem_cons.mp all
    exact Nat.max_le.mpr ⟨first, ih others⟩

/-- The greatest height of an expression that a statement may hold. -/
theorem tallest_eq (levels : Nat) : 2 * tallest levels = levels * (levels + 3) := by
  induction levels with
  | zero => rfl
  | succ levels ih =>
    rw [tallest, Nat.mul_add, Nat.mul_add, ih]
    ring

/-- A class that is read is no higher than its levels allow. -/
theorem height_le_of_readClass {source : String} {cls : Class} (read : readClass source = .ok cls) :
    cls.height ≤ 32896 := by
  apply Class.height_le
  intro own member stmt inside
  have shallow : Stmt.allLevels own.body ≤ 255 + 1 := shallow_of_readClass read own member
  have height := stmt.height_le ((Stmt.levels_le_of_mem inside).trans shallow)
  have greatest := tallest_eq 255
  omega

end Bound

/-! ## Where the levels bound the height -/

section Counted

/-- An expression that is no operator, or an operator whose left operand is lower than the levels
that are taken for the operator. The left operand was read before they were taken. -/
def Expr.Counted (expr : Expr) : Prop :=
  match expr with
  | .binary _ left _ _ => left.height < expr.levels
  | _ => True

instance (expr : Expr) : Decidable expr.Counted := by
  cases expr <;> unfold Expr.Counted <;> infer_instance

mutual

/-- An expression is no higher than its levels if they are taken around all left operands. -/
theorem Expr.height_le_levels (expr : Expr) (counted : ∀ part ∈ expr.parts, part.Counted) :
    expr.height ≤ expr.levels := by
  unfold Expr.parts at counted
  obtain ⟨own, inner⟩ := List.forall_mem_cons.mp counted
  cases expr with
  | binary op left right span =>
    have rightHeight := right.height_le_levels (List.forall_mem_append.mp inner).2
    have leftHeight : left.height < max left.levels (left.folds + 1 + right.levels) := own
    rw [Expr.height, Expr.levels]
    omega
  | unary op operand span => exact Nat.succ_le_succ (operand.height_le_levels inner)
  | element array index span => exact Nat.succ_le_succ (index.height_le_levels inner)
  | group inside span => exact Nat.succ_le_succ (inside.height_le_levels inner)
  | call receiver callee args span => exact Expr.argsHeight_le_levels args inner
  | _ => exact Nat.zero_le _

/-- Arguments are no higher than their levels if these are taken around all left operands. -/
theorem Expr.argsHeight_le_levels (args : List Expr)
    (counted : ∀ part ∈ Expr.argumentParts args, part.Counted) :
    Expr.argsHeight args ≤ Expr.allLevels args := by
  cases args with
  | nil => exact Nat.zero_le _
  | cons arg rest =>
    obtain ⟨own, others⟩ := List.forall_mem_append.mp counted
    have first := arg.height_le_levels own
    have later := Expr.argsHeight_le_levels rest others
    rw [Expr.argsHeight, Expr.allLevels]
    omega

end

mutual

/-- A statement is no higher than its levels if they are taken around all left operands. -/
theorem Stmt.height_le_levels (stmt : Stmt) (counted : ∀ part ∈ stmt.parts, part.Counted) :
    stmt.height ≤ stmt.levels := by
  cases stmt with
  | assign target value span => exact Nat.le_succ_of_le (value.height_le_levels counted)
  | assignElement array index value span =>
    obtain ⟨first, second⟩ := List.forall_mem_append.mp counted
    have indexHeight := index.height_le_levels first
    have valueHeight := value.height_le_levels second
    rw [Stmt.height, Stmt.levels]
    omega
  | branch condition thenBody elseBody span =>
    obtain ⟨front, last⟩ := List.forall_mem_append.mp counted
    obtain ⟨first, second⟩ := List.forall_mem_append.mp front
    have test := condition.height_le_levels first
    have thenHeight := Stmt.blockHeight_le_levels thenBody second
    have elseHeight := Stmt.blockHeight_le_levels elseBody last
    rw [Stmt.height, Stmt.levels]
    omega
  | loop condition body span =>
    obtain ⟨first, second⟩ := List.forall_mem_append.mp counted
    have test := condition.height_le_levels first
    have bodyHeight := Stmt.blockHeight_le_levels body second
    rw [Stmt.height, Stmt.levels]
    omega
  | call receiver callee args span =>
    unfold Stmt.parts Expr.parts at counted
    exact Expr.argsHeight_le_levels args (List.forall_mem_cons.mp counted).2
  | leave result span =>
    cases result with
    | none => exact Nat.zero_le _
    | some value => exact Nat.le_succ_of_le (value.height_le_levels counted)

/-- A block is no higher than its levels and its own if these are taken around all left
operands. -/
theorem Stmt.blockHeight_le_levels (stmts : List Stmt)
    (counted : ∀ part ∈ Stmt.bodyParts stmts, part.Counted) :
    Stmt.blockHeight stmts ≤ Stmt.allLevels stmts + 1 := by
  cases stmts with
  | nil => exact Nat.zero_le _
  | cons stmt rest =>
    obtain ⟨own, others⟩ := List.forall_mem_append.mp counted
    have first := stmt.height_le_levels own
    have later := Stmt.blockHeight_le_levels rest others
    rw [Stmt.blockHeight, Stmt.allLevels]
    omega

end

/-- The expressions in a statement of a body are in the body. -/
theorem Stmt.parts_subset_of_mem {stmts : List Stmt} {stmt : Stmt} (member : stmt ∈ stmts) :
    stmt.parts ⊆ Stmt.bodyParts stmts := by
  induction stmts with
  | nil => contradiction
  | cons first rest ih =>
    rcases List.mem_cons.mp member with rfl | inside
    · exact List.subset_append_left _ _
    · exact List.subset_append_of_subset_right _ (ih inside)

/-- A class that is read is as high as the language allows at most if its levels are taken around
all left operands. It takes no more levels in any case, and it is never higher than chains around
chains can be. -/
theorem height_of_readClass {source : String} {cls : Class} (read : readClass source = .ok cls) :
    (∀ own ∈ cls.subroutines, own.Shallow) ∧
      ((∀ part ∈ cls.parts, part.Counted) → cls.height ≤ nestingLimit) ∧ cls.height ≤ 32896 := by
  have shallow := shallow_of_readClass read
  refine ⟨shallow, fun counted => ?_, height_le_of_readClass read⟩
  apply Class.height_le
  intro own member stmt inside
  have levels : stmt.levels ≤ nestingLimit :=
    (Stmt.levels_le_of_mem inside).trans (shallow own member)
  have height := stmt.height_le_levels fun part there =>
    counted part (List.mem_flatMap.mpr ⟨own, member, Stmt.parts_subset_of_mem inside there⟩)
  exact height.trans levels

/-- A class whose operators nest to the right is no higher than the language allows. -/
theorem height_of_nested_right : ∃ cls,
    readClass "class A \x7b function int f() \x7b return 1 + (2 * -(3 & 4)); \x7d \x7d" = .ok cls ∧
      cls.height = 6 ∧ cls.height ≤ nestingLimit := by
  have counted : (readClass
      "class A \x7b function int f() \x7b return 1 + (2 * -(3 & 4)); \x7d \x7d").toOption.any
        (fun cls => decide ((∀ part ∈ cls.parts, part.Counted) ∧ cls.height = 6)) = true := by
    decide +kernel
  obtain ⟨cls, found, both⟩ := (Option.any_eq_true _ _).mp counted
  obtain ⟨all, height⟩ := of_decide_eq_true both
  have read := toOption_eq_some.mp found
  exact ⟨cls, read, height, (height_of_readClass read).2.1 all⟩

end Counted

/-! ## Places -/

section Places

mutual

/-- The places of an expression do not change its height. -/
theorem Expr.height_unplaced (expr : Expr) : expr.unplaced.height = expr.height := by
  cases expr with
  | binary op left right span =>
    rw [Expr.unplaced, Expr.height, left.height_unplaced, right.height_unplaced, Expr.height]
  | unary op operand span => rw [Expr.unplaced, Expr.height, operand.height_unplaced, Expr.height]
  | element array index span => rw [Expr.unplaced, Expr.height, index.height_unplaced, Expr.height]
  | group inner span => rw [Expr.unplaced, Expr.height, inner.height_unplaced, Expr.height]
  | call receiver callee args span =>
    rw [Expr.unplaced, Expr.height, Expr.argsHeight_unplaced args, Expr.height]
  | _ => rfl

/-- The places of arguments do not change their height. -/
theorem Expr.argsHeight_unplaced (args : List Expr) :
    Expr.argsHeight (Expr.allUnplaced args) = Expr.argsHeight args := by
  cases args with
  | nil => rfl
  | cons arg rest =>
    rw [Expr.allUnplaced, Expr.argsHeight, arg.height_unplaced, Expr.argsHeight_unplaced rest,
      Expr.argsHeight]

end

mutual

/-- The places of a statement do not change its height. -/
theorem Stmt.height_unplaced (stmt : Stmt) : stmt.unplaced.height = stmt.height := by
  cases stmt with
  | assign target value span => exact value.height_unplaced
  | assignElement array index value span =>
    rw [Stmt.unplaced, Stmt.height, index.height_unplaced, value.height_unplaced, Stmt.height]
  | branch condition thenBody elseBody span =>
    rw [Stmt.unplaced, Stmt.height, condition.height_unplaced, Stmt.blockHeight_unplaced thenBody,
      Stmt.blockHeight_unplaced elseBody, Stmt.height]
  | loop condition body span =>
    rw [Stmt.unplaced, Stmt.height, condition.height_unplaced, Stmt.blockHeight_unplaced body,
      Stmt.height]
  | call receiver callee args span => exact Expr.argsHeight_unplaced args
  | leave result span =>
    cases result with
    | none => rfl
    | some value => exact value.height_unplaced

/-- The places of the statements of a block do not change their height. -/
theorem Stmt.blockHeight_unplaced (stmts : List Stmt) :
    Stmt.blockHeight (Stmt.allUnplaced stmts) = Stmt.blockHeight stmts := by
  cases stmts with
  | nil => rfl
  | cons stmt rest =>
    rw [Stmt.allUnplaced, Stmt.blockHeight, stmt.height_unplaced, Stmt.blockHeight_unplaced rest,
      Stmt.blockHeight]

end

/-- The places of a class do not change its height. -/
theorem Class.height_unplaced (cls : Class) : cls.unplaced.height = cls.height := by
  have bodies : cls.unplaced.subroutines.flatMap Subroutine.body =
      (cls.subroutines.flatMap Subroutine.body).map Stmt.unplaced := by
    rw [Class.unplaced, List.flatMap_map, List.map_flatMap]
    exact List.flatMap_congr fun own _ => Stmt.allUnplaced_eq_map own.body
  rw [Class.height, bodies, List.map_map, Class.height]
  exact congrArg (List.foldr max 0) (List.map_congr_left fun stmt _ => stmt.height_unplaced)

end Places

/-! ## Chains around groups -/

section Towers

/-- An expression with a number of additions behind it. -/
def summed : Nat → Expr → Expr
  | 0, first => first
  | count + 1, first => .binary .add (summed count first) (.integer 1 .nowhere) .nowhere

/-- The highest expression that takes so many levels besides its own. -/
def tower : Nat → Expr
  | 0 => .integer 1 .nowhere
  | levels + 1 => summed (levels + 1) (.group (tower levels) .nowhere)

/-- A class whose one statement is a call with one argument. -/
def calling (arg : Expr) : Class where
  name := ⟨"A", .nowhere⟩
  vars := []
  subroutines := [{
    kind := .function
    result := .void
    name := ⟨"f", .nowhere⟩
    params := []
    locals := []
    body := [.call none ⟨"f", .nowhere⟩ [arg] .nowhere] }]

variable {expr : Expr} {count levels : Nat}

/-- The height of a class with one call. -/
theorem height_calling : (calling expr).height = expr.height + 1 := by
  simp [calling, Class.height, Stmt.height, Expr.argsHeight]

/-- Additions come on top of an expression. -/
theorem height_summed : (summed count expr).height = expr.height + count := by
  induction count with
  | zero => rfl
  | succ count ih =>
    rw [summed, Expr.height, ih, Expr.height]
    omega

/-- Every addition is folded. -/
theorem folds_summed : (summed count expr).folds = expr.folds + count := by
  induction count with
  | zero => rfl
  | succ count ih =>
    rw [summed, Expr.folds, ih]
    rfl

/-- Additions behind an expression take levels besides those of the expression. -/
theorem levels_summed (bare : expr.folds = 0) (fits : expr.levels ≤ levels) (few : count ≤ levels) :
    (summed count expr).levels ≤ levels := by
  induction count with
  | zero => exact fits
  | succ count ih =>
    have front := ih (Nat.le_of_succ_le few)
    rw [summed, Expr.levels, folds_summed, bare, Expr.levels]
    omega

/-- What can be spelled as an argument of a call. -/
structure Expr.Plain (expr : Expr) : Prop where
  /-- Its lexemes can be written. -/
  words : ∀ lexeme ∈ expr.lexemes, lexeme.Writable
  /-- Its operators group as they bind. -/
  grouped : expr.Grouped
  /-- It is an addition if it is a bare binary operation. -/
  adds : ∀ op ∈ expr.top?, op = .add

/-- A number can be spelled. -/
theorem plain_one : (Expr.integer 1 .nowhere).Plain where
  words := by decide
  grouped := trivial
  adds := fun op none => by contradiction

/-- An expression in parentheses can be spelled. -/
theorem Expr.Plain.group (plain : expr.Plain) : (Expr.group expr .nowhere).Plain where
  words := by
    refine List.forall_mem_cons.mpr ⟨trivial, List.forall_mem_append.mpr ⟨plain.words, ?_⟩⟩
    exact List.forall_mem_singleton.mpr trivial
  grouped := plain.grouped
  adds := fun op none => by contradiction

/-- An expression with additions behind it can be spelled. -/
theorem Expr.Plain.summed (plain : expr.Plain) (count : Nat) : (summed count expr).Plain := by
  induction count with
  | zero => exact plain
  | succ count ih =>
    have behind : ∀ lexeme ∈ [Lexeme.symbol .plus, .integer 1], lexeme.Writable := by decide
    refine ⟨List.forall_mem_append.mpr ⟨ih.words, behind⟩, ⟨?_, ?_, ih.grouped, trivial⟩, ?_⟩
    · intro op own
      rw [ih.adds op own]
    · exact fun op none => by contradiction
    · rintro op ⟨rfl⟩
      rfl

/-- A call with an argument that can be spelled is read as it is. -/
theorem exists_read_calling (plain : expr.Plain) (fits : expr.levels < nestingLimit) :
    ∃ cls, readClass (calling expr).text = .ok cls ∧ cls.height = expr.height + 1 := by
  let front : List Lexeme := [.keyword .class, .identifier "A", .symbol .braceOpen,
    .keyword .function, .keyword .void, .identifier "f", .symbol .parenOpen, .symbol .parenClose,
    .symbol .braceOpen, .keyword .do, .identifier "f", .symbol .parenOpen]
  let back : List Lexeme := [.symbol .parenClose, .symbol .semicolon, .symbol .braceClose,
    .symbol .braceClose]
  have lexemes : (calling expr).lexemes = front ++ (expr.lexemes ++ back) := by
    simp [calling, Class.lexemes, Subroutine.lexemes, Stmt.bodyLexemes, Stmt.lexemes, callLexemes,
      JackType.lexeme, SubroutineKind.keyword, listed, parenthesized, braced, front, back]
  have words : ∀ lexeme ∈ (calling expr).lexemes, lexeme.Writable := by
    rw [lexemes]
    have around : (∀ lexeme ∈ front, lexeme.Writable) ∧ ∀ lexeme ∈ back, lexeme.Writable := by
      decide
    exact List.forall_mem_append.mpr ⟨around.1, List.forall_mem_append.mpr ⟨plain.words, around.2⟩⟩
  have spellable : (calling expr).Spellable := by
    refine ⟨words, fun item none => by contradiction, ?_, ?_, ?_⟩
    · exact List.forall_mem_singleton.mpr fun item none => by contradiction
    · exact List.forall_mem_singleton.mpr ⟨⟨plain.grouped, trivial⟩, trivial⟩
    · exact List.forall_mem_singleton.mpr (Nat.max_le.mpr ⟨Nat.max_le.mpr ⟨fits, Nat.zero_le _⟩,
        Nat.zero_le _⟩)
  obtain ⟨tokens, scanned, nodes⟩ := scan_spacedText words
  obtain ⟨cls, read, same⟩ := exists_read_of_scan spellable scanned nodes
  refine ⟨cls, read, ?_⟩
  rw [← cls.height_unplaced, same, (calling expr).height_unplaced, height_calling]

/-- A tower takes no more levels than it has. -/
theorem levels_tower : (tower levels).levels ≤ levels := by
  induction levels with
  | zero => exact Nat.le_refl 0
  | succ levels ih => exact levels_summed rfl (Nat.succ_le_succ ih) (Nat.le_refl _)

/-- A tower is as high as its levels allow. -/
theorem height_tower : (tower levels).height = tallest levels := by
  induction levels with
  | zero => rfl
  | succ levels ih =>
    rw [tower, height_summed, Expr.height, ih, tallest]
    omega

/-- A tower can be spelled. -/
theorem plain_tower : (tower levels).Plain := by
  induction levels with
  | zero => exact plain_one
  | succ levels ih => exact ih.group.summed (levels + 1)

/-- The bound on the height of a class that is read is reached: a class is read whose one argument
is a tower. -/
theorem isGreatest_height :
    IsGreatest {height | ∃ source cls, readClass source = .ok cls ∧ cls.height = height}
      32896 := by
  constructor
  · have fits : (tower 255).levels < nestingLimit := Nat.lt_succ_of_le levels_tower
    obtain ⟨cls, read, height⟩ := exists_read_calling plain_tower fits
    have greatest := tallest_eq 255
    refine ⟨_, cls, read, ?_⟩
    rw [height, height_tower]
    omega
  · rintro height ⟨source, cls, read, rfl⟩
    exact height_le_of_readClass read

/-- A sum of 129 numbers in parentheses with 128 more behind it: no chain is longer than the
language allows, but together they nest deeper. -/
def twoSums : Expr := summed 128 (.group (summed 128 (.integer 1 .nowhere)) .nowhere)

/-- The two sums are read, although a number in them has 258 levels around it. -/
theorem twoSums_read :
    ∃ cls, readClass (calling twoSums).text = .ok cls ∧ cls.height = 258 ∧
      nestingLimit < cls.height := by
  have inner : (summed 128 (.integer 1 .nowhere)).levels ≤ 128 :=
    levels_summed rfl (Nat.zero_le _) (Nat.le_refl _)
  have group : (Expr.group (summed 128 (.integer 1 .nowhere)) .nowhere).levels ≤ 129 := by
    rw [Expr.levels]
    omega
  have levels : twoSums.levels ≤ 129 := levels_summed rfl group (by decide)
  have plain : twoSums.Plain := (plain_one.summed 128).group.summed 128
  obtain ⟨cls, read, height⟩ := exists_read_calling plain (Nat.lt_of_le_of_lt levels (by decide))
  have limit : nestingLimit = 256 := rfl
  have sums : twoSums.height = 257 := by
    rw [twoSums, height_summed, Expr.height, height_summed]
    rfl
  exact ⟨cls, read, by omega, by omega⟩

end Towers

end JackToolchain.Jack
