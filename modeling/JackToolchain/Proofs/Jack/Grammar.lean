import JackToolchain.Proofs.Jack.Reader

/-!
# What the grammar makes

A class that is read from the lexemes of a text has words as names, constants in range and no list
longer than the text: every argument, name and declaration took a lexeme.
-/
namespace JackToolchain.Jack

open Reader

/-! ## Parts -/

mutual

/-- An expression and all expressions in it. -/
def Expr.parts (expr : Expr) : List Expr :=
  expr :: match expr with
    | .binary _ left right _ => left.parts ++ right.parts
    | .unary _ operand _ => operand.parts
    | .element _ index _ => index.parts
    | .call _ _ args _ => Expr.argumentParts args
    | .group inner _ => inner.parts
    | .integer _ _ | .string _ _ | .boolean _ _ | .null _ | .this _ | .variable _ _ => []

/-- Arguments and all expressions in them. -/
def Expr.argumentParts : List Expr → List Expr
  | [] => []
  | arg :: rest => arg.parts ++ Expr.argumentParts rest

end

mutual

/-- All expressions in a statement. A call whose result is dropped is one of them. -/
def Stmt.parts : Stmt → List Expr
  | .assign _ value _ => value.parts
  | .assignElement _ index value _ => index.parts ++ value.parts
  | .branch condition thenBody elseBody _ =>
    condition.parts ++ Stmt.bodyParts thenBody ++ Stmt.bodyParts elseBody
  | .loop condition body _ => condition.parts ++ Stmt.bodyParts body
  | .call receiver callee args span => (Expr.call receiver callee args span).parts
  | .leave none _ => []
  | .leave (some result) _ => result.parts

/-- All expressions in statements. -/
def Stmt.bodyParts : List Stmt → List Expr
  | [] => []
  | stmt :: rest => stmt.parts ++ Stmt.bodyParts rest

end

/-- All expressions in a class. -/
def Class.parts (cls : Class) : List Expr :=
  cls.subroutines.flatMap fun subroutine => Stmt.bodyParts subroutine.body

/-! ## Trees that fit -/

/-- An expression that, apart from those in it, can stand in a text of at most so many
characters. -/
def Expr.Bounded (limit : Nat) : Expr → Prop
  | .integer value _ => (Lexeme.integer value).Fits limit
  | .string content _ => (Lexeme.string content).Fits limit
  | .call receiver callee args _ =>
    (∀ name, receiver = some name → isWord name.node.toList = true) ∧
      isWord callee.node.toList = true ∧ args.length + 1 ≤ limit
  | .binary _ _ _ _ | .unary _ _ _ | .boolean _ _ | .null _ | .this _ | .variable _ _
  | .element _ _ _ | .group _ _ => True

/-- An expression of a text of at most so many characters. -/
def Expr.Fits (limit : Nat) (expr : Expr) : Prop := ∀ part ∈ expr.parts, part.Bounded limit

/-- Arguments of a text of at most so many characters. -/
def Expr.AllFit (limit : Nat) (args : List Expr) : Prop :=
  ∀ part ∈ Expr.argumentParts args, part.Bounded limit

/-- A statement of a text of at most so many characters. -/
def Stmt.Fits (limit : Nat) (stmt : Stmt) : Prop := ∀ part ∈ stmt.parts, part.Bounded limit

/-- Statements of a text of at most so many characters. -/
def Stmt.AllFit (limit : Nat) (stmts : List Stmt) : Prop :=
  ∀ part ∈ Stmt.bodyParts stmts, part.Bounded limit

/-- A type whose name is a word of the language. -/
def JackType.Fits (type : JackType) : Prop := isWord type.name.toList = true

instance (type : JackType) : Decidable type.Fits := by
  unfold JackType.Fits
  infer_instance

/-- A subroutine of a text of at most so many characters. -/
structure Subroutine.Fits (limit : Nat) (subroutine : Subroutine) : Prop where
  /-- Its name. -/
  name : isWord subroutine.name.node.toList = true
  /-- The number of its parameters. -/
  params : subroutine.params.length ≤ limit
  /-- The types of its parameters. -/
  paramTypes : ∀ param ∈ subroutine.params, param.type.Fits
  /-- The number of its local variables. -/
  locals : subroutine.locals.length ≤ limit
  /-- The types of its local variables. -/
  localTypes : ∀ item ∈ subroutine.locals, item.type.Fits
  /-- Its statements. -/
  body : Stmt.AllFit limit subroutine.body

/-- A class of a text of at most so many characters. -/
structure Class.Fits (limit : Nat) (cls : Class) : Prop where
  /-- Its name. -/
  name : isWord cls.name.node.toList = true
  /-- The number of its variables of each kind. -/
  vars : ∀ storage, cls.vars.countP (fun item => item.storage = storage) ≤ limit
  /-- The types of its variables. -/
  varTypes : ∀ item ∈ cls.vars, item.type.Fits
  /-- Its subroutines. -/
  subroutines : ∀ subroutine ∈ cls.subroutines, subroutine.Fits limit

section Lists

variable {limit : Nat}

/-- All expressions of a list fit if each does. -/
theorem Expr.allFit_of_forall {exprs : List Expr} (each : ∀ expr ∈ exprs, expr.Fits limit) :
    Expr.AllFit limit exprs := by
  induction exprs with
  | nil => exact fun part member => by contradiction
  | cons expr rest ih =>
    exact List.forall_mem_append.mpr ⟨each expr List.mem_cons_self, ih fun other member =>
      each other (List.mem_cons_of_mem _ member)⟩

/-- All statements of a list fit if each does. -/
theorem Stmt.allFit_of_forall {stmts : List Stmt} (each : ∀ stmt ∈ stmts, stmt.Fits limit) :
    Stmt.AllFit limit stmts := by
  induction stmts with
  | nil => exact fun part member => by contradiction
  | cons stmt rest ih =>
    exact List.forall_mem_append.mpr ⟨each stmt List.mem_cons_self, ih fun other member =>
      each other (List.mem_cons_of_mem _ member)⟩

end Lists

/-! ## Expressions -/

section Expressions

variable {limit : Nat} {inner inside : Reader Expr}

/-- A reader of expressions that fit, of which each takes a lexeme. -/
def ReadsExpr (limit : Nat) (reader : Reader Expr) : Prop :=
  Reads limit (fun _ => 1) (Expr.Fits limit) reader

/-- The arguments of a call take a lexeme each, besides the parentheses. -/
theorem reads_arguments (own : ReadsExpr limit inner) :
    Reads limit (fun args => args.length + 2) (Expr.AllFit limit) (arguments inner) := by
  rw [arguments_eq]
  exact (reads_parenthesized own).weaken fun args all _ => ⟨Expr.allFit_of_forall all, Nat.le_refl _⟩

/-- A call after its first name fits. -/
theorem reads_callAfter (own : ReadsExpr limit inner) {first : Name}
    (named : isWord first.node.toList = true) :
    Reads limit (fun _ => 2)
      (fun call => ∀ span, (Expr.call call.1 call.2.1 call.2.2 span).Fits limit)
      (callAfter inner first) := by
  have args : Reads limit (fun _ => 2)
      (fun args => args.length + 1 ≤ limit ∧ Expr.AllFit limit args) (arguments inner) :=
    (reads_arguments own).weaken fun args all few => ⟨⟨by omega, all⟩, by omega⟩
  refine (reads_accept (by simp)).bind fun taken _ => ?_
  cases taken with
  | true =>
    refine reads_identifier.bind fun callee calleeNamed => args.bind fun args ⟨few, all⟩ => ?_
    have receiverNamed (name : Name) (same : some first = some name) :
        isWord name.node.toList = true := Option.some.inj same ▸ named
    exact reads_pure rfl fun span =>
      List.forall_mem_cons.mpr ⟨⟨receiverNamed, calleeNamed, few⟩, all⟩
  | false =>
    exact args.bind fun args ⟨few, all⟩ => reads_pure rfl fun span =>
      List.forall_mem_cons.mpr ⟨⟨fun name same => by contradiction, named, few⟩, all⟩

/-- What follows a name in an expression makes an expression that fits. -/
theorem reads_nameTerm (own : ReadsExpr limit inner) {name : Name}
    (named : isWord name.node.toList = true) :
    Reads limit (fun _ => 0) (fun build => ∀ span, (build span).Fits limit)
      (nameTerm inner name) := by
  refine reads_peek fun found _ => ?_
  split
  · refine readsFrom_advance (by simp) (own.bind fun index fits => ?_)
    exact (reads_expect (by simp)).bind fun _ _ =>
      reads_pure rfl fun span => List.forall_mem_cons.mpr ⟨trivial, fits⟩
  · exact ((reads_callAfter own named).bind fun call fits => reads_pure rfl fits).from
  · exact ((reads_callAfter own named).bind fun call fits => reads_pure rfl fits).from
  · exact Reads.from (reads_pure rfl fun span => List.forall_mem_singleton.mpr trivial)

/-- A lexeme that is a whole expression is taken. -/
theorem readsFrom_leaf {found : Lexeme} (some : found ≠ .eof) {build : Span → Expr}
    (fits : ∀ span, (build span).Fits limit) :
    ReadsFrom found limit (fun _ => 1) (fun build => ∀ span, (build span).Fits limit)
      (leaf build) :=
  readsFrom_advance some (reads_pure rfl fits)

/-- An expression without operators at its top fits, and it takes a lexeme. -/
theorem reads_term (own : ReadsExpr limit inner) (ownOperand : ReadsExpr limit inside) :
    ReadsExpr limit (term inner inside) := by
  refine reads_spanned (reads_peek fun found fits => ?_)
  split
  · exact readsFrom_leaf (by simp) fun span => List.forall_mem_singleton.mpr fits
  · exact readsFrom_leaf (by simp) fun span => List.forall_mem_singleton.mpr fits
  · exact readsFrom_leaf (by simp) fun span => List.forall_mem_singleton.mpr trivial
  · exact readsFrom_leaf (by simp) fun span => List.forall_mem_singleton.mpr trivial
  · exact readsFrom_leaf (by simp) fun span => List.forall_mem_singleton.mpr trivial
  · exact readsFrom_leaf (by simp) fun span => List.forall_mem_singleton.mpr trivial
  · refine readsFrom_advance (by simp) (own.bind fun value fits => ?_)
    exact (reads_expect (by simp)).bind fun _ _ =>
      reads_pure rfl fun span => List.forall_mem_cons.mpr ⟨trivial, fits⟩
  · exact readsFrom_advance (by simp) (ownOperand.bind fun value fits =>
      reads_pure rfl fun span => List.forall_mem_cons.mpr ⟨trivial, fits⟩)
  · exact readsFrom_advance (by simp) (ownOperand.bind fun value fits =>
      reads_pure rfl fun span => List.forall_mem_cons.mpr ⟨trivial, fits⟩)
  · exact (reads_identifier.bind fun name named => reads_nameTerm own named).from
  · exact reads_refuse.from

/-- An operator is taken if it binds tightly enough. -/
theorem reads_acceptOperator (floor : Nat) :
    Reads limit (fun _ => 0) (fun _ => True) (acceptOperator floor) := by
  refine reads_peek fun found _ => ?_
  split
  · split
    · exact (reads_advance.bind fun _ _ => reads_pure rfl trivial).from
    · exact Reads.from (reads_pure rfl trivial)
  · exact Reads.from (reads_pure rfl trivial)

/-- The readers of expressions make expressions that fit, at every level. -/
theorem reads_levels (levels : Nat) :
    ReadsExpr limit (expression levels) ∧ ReadsExpr limit (operand levels) ∧
      ∀ floor left, left.Fits limit →
        Reads limit (fun _ => 0) (Expr.Fits limit) (operators levels floor left) := by
  induction levels with
  | zero =>
    refine ⟨?_, ?_, fun floor left fits => ?_⟩
    · rw [expression]
      exact reads_refuse
    · rw [operand]
      exact reads_refuse
    · rw [operators]
      refine (reads_acceptOperator floor).bind fun op _ => ?_
      cases op with
      | none => exact reads_pure rfl fits
      | some op => exact reads_refuse
  | succ levels ih =>
    obtain ⟨whole, sign, chain⟩ := ih
    have first : ReadsExpr limit (term (expression levels) (operand levels)) :=
      reads_term whole sign
    refine ⟨?_, ?_, fun floor left fits => ?_⟩
    · rw [expression]
      exact first.bind fun value fits => chain 0 value fits
    · rw [operand]
      exact first
    · rw [operators]
      refine (reads_acceptOperator floor).bind fun op _ => ?_
      cases op with
      | none => exact reads_pure rfl fits
      | some op =>
        refine first.bind fun value valueFits => ?_
        refine (chain op.rightPower value valueFits).bind fun right rightFits => ?_
        exact chain floor _ (List.forall_mem_cons.mpr
          ⟨trivial, List.forall_mem_append.mpr ⟨fits, rightFits⟩⟩)

end Expressions

/-! ## Statements -/

section Statements

variable {limit : Nat} {inner : Reader Expr} {body : Reader (List Stmt)}

/-- A reader of statements that fit. -/
def ReadsBody (limit : Nat) (reader : Reader (List Stmt)) : Prop :=
  Reads limit (fun _ => 0) (Stmt.AllFit limit) reader

/-- A reader of what makes a statement that fits. -/
def ReadsStmt (limit : Nat) (reader : Reader (Span → Stmt)) : Prop :=
  Reads limit (fun _ => 0) (fun build => ∀ span, (build span).Fits limit) reader

/-- A condition fits. -/
theorem reads_condition (own : ReadsExpr limit inner) :
    Reads limit (fun _ => 0) (Expr.Fits limit) (condition inner) := by
  refine (reads_expect (by simp)).bind fun _ _ => own.bind fun value fits => ?_
  exact (reads_expect (by simp)).bind fun _ _ => reads_pure rfl fits

/-- An assignment fits. -/
theorem reads_assignment (own : ReadsExpr limit inner) : ReadsStmt limit (assignment inner) := by
  refine reads_identifier.bind fun target _ => (reads_accept (by simp)).bind fun taken _ => ?_
  have close {last : Expr → Reader (Span → Stmt)}
      (ends : ∀ value : Expr, value.Fits limit → ReadsStmt limit (last value)) :
      ReadsStmt limit (do
        expect (.symbol .equals)
        let value ← inner
        expect (.symbol .semicolon)
        last value) :=
    (reads_expect (by simp)).bind fun _ _ => own.bind fun value fits =>
      (reads_expect (by simp)).bind fun _ _ => ends value fits
  cases taken with
  | true =>
    refine own.bind fun index indexFits => (reads_expect (by simp)).bind fun _ _ => ?_
    rw [pure_bind]
    apply close
    intro value fits
    exact reads_pure rfl fun span => List.forall_mem_append.mpr ⟨indexFits, fits⟩
  | false =>
    dsimp only
    rw [pure_bind]
    apply close
    intro value fits
    exact reads_pure rfl fun span => fits

/-- A branch fits. -/
theorem reads_branch (own : ReadsExpr limit inner) (block : ReadsBody limit body) :
    ReadsStmt limit (branch inner body) := by
  refine (reads_condition own).bind fun test testFits => block.bind fun thenBody thenFits => ?_
  have close (elseBody : List Stmt) (elseFits : Stmt.AllFit limit elseBody) :
      ReadsStmt limit (pure fun span => .branch test thenBody elseBody span) :=
    reads_pure rfl fun span => List.forall_mem_append.mpr
      ⟨List.forall_mem_append.mpr ⟨testFits, thenFits⟩, elseFits⟩
  refine (reads_accept (by simp)).bind fun taken _ => ?_
  cases taken with
  | true => exact block.bind close
  | false =>
    have none : ReadsBody limit (pure []) := reads_pure rfl fun part member => by contradiction
    exact none.bind close

/-- A loop fits. -/
theorem reads_loop (own : ReadsExpr limit inner) (block : ReadsBody limit body) :
    ReadsStmt limit (loop inner body) :=
  (reads_condition own).bind fun _ testFits => block.bind fun _ fits =>
    reads_pure rfl fun _ => List.forall_mem_append.mpr ⟨testFits, fits⟩

/-- A call statement fits. -/
theorem reads_callStatement (own : ReadsExpr limit inner) :
    ReadsStmt limit (callStatement inner) := by
  refine reads_identifier.bind fun first named => ?_
  refine (reads_callAfter own named).bind fun call fits => ?_
  exact (reads_expect (by simp)).bind fun _ _ => reads_pure rfl fun span => fits span

/-- A return statement fits. -/
theorem reads_returnStatement (own : ReadsExpr limit inner) :
    ReadsStmt limit (returnStatement inner) := by
  have close (result : Option Expr) (fits : ∀ value, result = some value → value.Fits limit) :
      ReadsStmt limit (expect (.symbol .semicolon) >>= fun _ => pure (Stmt.leave result)) :=
    (reads_expect (by simp)).bind fun _ _ => reads_pure rfl fun span => by
      cases result with
      | none => exact fun part member => by contradiction
      | some value => exact fits value rfl
  refine reads_peek fun found _ => ?_
  dsimp only
  split
  · have none : Reads limit (fun _ => 0)
        (fun result : Option Expr => ∀ value, result = some value → value.Fits limit)
        (pure none) :=
      reads_pure rfl fun value same => by contradiction
    exact (none.bind close).from
  · refine (own.bind fun value fits => ?_).from
    exact close (some value) fun other same => Option.some.inj same ▸ fits

/-- A statement fits, and it takes a lexeme. -/
theorem reads_statement (own : ReadsExpr limit inner) (block : ReadsBody limit body) :
    Reads limit (fun _ => 1) (Stmt.Fits limit) (statement inner body) := by
  refine reads_spanned (reads_peek fun found _ => ?_)
  split
  · exact readsFrom_advance (by simp) (reads_assignment own)
  · exact readsFrom_advance (by simp) (reads_branch own block)
  · exact readsFrom_advance (by simp) (reads_loop own block)
  · exact readsFrom_advance (by simp) (reads_callStatement own)
  · exact readsFrom_advance (by simp) (reads_returnStatement own)
  · exact reads_refuse.from

/-- Statements fit. -/
theorem reads_statementsWith {item : Reader Stmt}
    (own : Reads limit (fun _ => 1) (Stmt.Fits limit) item) :
    ReadsBody limit (statementsWith item) :=
  (reads_repeat own).weaken fun _ all _ => ⟨Stmt.allFit_of_forall all, Nat.zero_le _⟩

/-- A block fits, at every level. -/
theorem reads_block (levels : Nat) : ReadsBody limit (block levels) := by
  induction levels with
  | zero =>
    rw [block]
    exact (reads_expect (by simp)).bind fun _ _ => reads_refuse
  | succ levels ih =>
    rw [block]
    refine (reads_expect (by simp)).bind fun _ _ => ?_
    refine Reads.bind (reads_statementsWith (reads_statement (reads_levels levels).1 ih)) ?_
    intro stmts fits
    exact (reads_expect (by simp)).bind fun _ _ => reads_pure rfl fits

/-- The statements of a subroutine fit. -/
theorem reads_statements (levels : Nat) : ReadsBody limit (statements levels) :=
  reads_statementsWith (reads_statement (reads_levels levels).1 (reads_block levels))

end Statements

/-! ## Classes -/

section Classes

variable {limit : Nat}

/-- A type fits. -/
theorem reads_typeName : Reads limit (fun _ => 0) JackType.Fits typeName := by
  have close (type : JackType) (fits : type.Fits) :
      Reads limit (fun _ => 0) JackType.Fits (Reader.advance >>= fun _ => pure type) :=
    reads_advance.bind fun _ _ => reads_pure rfl fits
  have known (type : JackType) (fits : type.Fits) :
      Reads limit (fun _ => 0) JackType.Fits (pure type) := reads_pure rfl fits
  have refused (reason : Malformed) :
      Reads limit (fun _ => 0) JackType.Fits (refuse reason) := reads_refuse
  refine reads_peek fun found fits => ?_
  dsimp only
  split
  · exact ((known .int (by decide)).bind close).from
  · exact ((known .char (by decide)).bind close).from
  · exact ((known .boolean (by decide)).bind close).from
  · rename_i className
    exact ((known (.object className) fits).bind close).from
  · exact ((refused _).bind close).from

/-- Declared names take a lexeme each. -/
theorem reads_declaredNames :
    Reads limit (fun names => names.length + 1) (fun _ => True) declaredNames := by
  refine (reads_commaSeparated reads_identifier).bind fun names _ => ?_
  refine (reads_expect (by simp)).bind fun _ _ => reads_pure ?_ trivial
  rw [takenBy_one]
  omega

/-- Variables that are made of declared names take a lexeme each. -/
theorem reads_declared {α : Type} {least : List α → Nat} {proper : α → Prop} {make : Name → α}
    (few : ∀ items, least items ≤ items.length + 1) (each : ∀ name, proper (make name)) :
    Reads limit least (fun items => ∀ item ∈ items, proper item)
      (do return (← declaredNames).map make) := by
  refine reads_declaredNames.bind fun names _ => reads_pure ?_ fun item member => ?_
  · have enough := few (names.map make)
    rw [List.length_map] at enough
    omega
  · obtain ⟨name, _, rfl⟩ := List.mem_map.mp member
    exact each name

/-- Class variables take a lexeme each, and their types fit. -/
theorem reads_classVariables :
    Reads limit (fun vars => vars.length + 1) (fun vars => ∀ item ∈ vars, item.type.Fits)
      classVariables := by
  refine reads_peek fun found _ => (reads_advance.bind fun _ _ => ?_).from
  exact reads_typeName.bind fun type fits => reads_declared (fun _ => by omega) fun _ => fits

/-- Local variables take a lexeme each, and their types fit. -/
theorem reads_localVariables :
    Reads limit (fun locals => locals.length + 1) (fun locals => ∀ item ∈ locals, item.type.Fits)
      localVariables := by
  refine (reads_expect (by simp)).bind fun _ _ => reads_typeName.bind fun type fits => ?_
  exact reads_declared (fun _ => by omega) fun _ => fits

/-- Declarations of at least one variable each take more lexemes than there are variables. -/
theorem length_flatten_le {α : Type} {lists : List (List α)}
    (few : takenBy (fun list => list.length + 1) lists ≤ limit + 1) :
    lists.flatten.length ≤ limit := by
  have counted : takenBy (fun list => list.length + 1) lists =
      lists.flatten.length + lists.length := by
    clear few
    induction lists with
    | nil => rfl
    | cons list rest ih =>
      rw [takenBy_cons, ih, List.flatten_cons, List.length_append, List.length_cons]
      omega
  cases lists with
  | nil => exact Nat.zero_le _
  | cons list rest =>
    rw [List.length_cons] at counted
    omega

/-- Repeated declarations declare no more variables than there are characters. -/
theorem reads_declarations {α : Type} {proper : α → Prop} {more : Lexeme → Bool}
    {declaration : Reader (List α)}
    (own : Reads limit (fun items => items.length + 1) (fun items => ∀ item ∈ items, proper item)
      declaration) :
    Reads limit (fun _ => 0)
      (fun lists => lists.flatten.length ≤ limit ∧ ∀ item ∈ lists.flatten, proper item)
      (Reader.repeat more declaration) := by
  refine (reads_repeat own).weaken fun lists fits few => ?_
  refine ⟨⟨length_flatten_le few, fun item member => ?_⟩, Nat.zero_le _⟩
  obtain ⟨list, inLists, inside⟩ := List.mem_flatten.mp member
  exact fits list inLists item inside

/-- Parameters take a lexeme each besides the parentheses, and their types fit. -/
theorem reads_parameters :
    Reads limit (fun _ => 0) (fun params => params.length ≤ limit ∧ ∀ item ∈ params, item.type.Fits)
      parameters := by
  have parameter : Reads limit (fun _ => 1) (fun item => item.type.Fits) parameter :=
    reads_typeName.bind fun type fits => reads_identifier.bind fun name _ => reads_pure rfl fits
  rw [parameters_eq]
  exact (reads_parenthesized parameter).weaken fun params fits few =>
    ⟨⟨by omega, fits⟩, Nat.zero_le _⟩

/-- What stands behind the kind and the result of a subroutine fits. -/
theorem reads_subroutineAfter (kind : SubroutineKind) (result : JackType) :
    Reads limit (fun _ => 0) (Subroutine.Fits limit) (subroutineAfter kind result) := by
  refine reads_identifier.bind fun name named => reads_parameters.bind fun params paramsFit => ?_
  refine (reads_expect (by simp)).bind fun _ _ => ?_
  refine (reads_declarations reads_localVariables).bind fun locals localsFit => ?_
  refine (reads_statements nestingLimit).bind fun body bodyFits => ?_
  refine (reads_expect (by simp)).bind fun _ _ => reads_pure rfl ?_
  exact ⟨named, paramsFit.1, paramsFit.2, localsFit.1, localsFit.2, bodyFits⟩

/-- A subroutine fits. -/
theorem reads_subroutine : Reads limit (fun _ => 0) (Subroutine.Fits limit) subroutine := by
  rw [subroutine_eq]
  refine reads_peek fun found _ => (reads_advance.bind fun _ _ => ?_).from
  refine (reads_accept (by simp)).bind fun nothing _ => ?_
  cases nothing with
  | true => exact (reads_subroutineAfter _ .void).weaken fun _ fits _ => ⟨fits, by omega⟩
  | false => exact reads_typeName.bind fun result _ => reads_subroutineAfter _ result

/-- A class fits. -/
theorem reads_wholeClass : Reads limit (fun _ => 0) (Class.Fits limit) wholeClass := by
  have declaration : Reads limit (fun _ => 0) (Class.Fits limit) classDeclaration := by
    refine (reads_expect (by simp)).bind fun _ _ => reads_identifier.bind fun name named => ?_
    refine (reads_expect (by simp)).bind fun _ _ => ?_
    refine (reads_declarations reads_classVariables).bind fun vars varsFit => ?_
    refine (reads_repeat reads_subroutine).bind fun subroutines subroutinesFit => ?_
    refine (reads_expect (by simp)).bind fun _ _ => reads_pure (by omega) ?_
    have few (storage : ClassStorage) :
        vars.flatten.countP (fun item => item.storage = storage) ≤ limit :=
      Nat.le_trans List.countP_le_length varsFit.1
    exact ⟨named, few, varsFit.2, subroutinesFit⟩
  refine declaration.bind fun result fits => reads_peek fun found _ => ?_
  split
  · exact Reads.from (reads_pure rfl fits)
  · exact reads_refuse.from

end Classes

end JackToolchain.Jack
