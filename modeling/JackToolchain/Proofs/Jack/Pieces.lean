import JackToolchain.Proofs.Jack.Placing
import JackToolchain.Proofs.Jack.Writing

/-!
# What a tree is written with

The lexemes that write a tree fall into pieces: single lexemes, names, and the parts of the tree,
which fall into pieces themselves. `Writes` relates lexemes with their places to pieces. It says
where every name of a tree stands, and that the span of every part goes from its first lexeme to its
last one.
-/
namespace JackToolchain.Jack

/-! ## Pieces -/

/-- A piece of a tree. -/
inductive Piece where
  /-- A lexeme without a place in the tree. -/
  | mark (lexeme : Lexeme)
  /-- A name. -/
  | name (name : Name)
  /-- An expression. -/
  | expr (expr : Expr)
  /-- A statement. -/
  | stmt (stmt : Stmt)
  /-- The else branch of a statement, which may be left out if it is empty. -/
  | otherwise (body : List Stmt)

/-- Items with commas between them. -/
def Piece.listed : List (List Piece) → List Piece
  | [] => []
  | [item] => item
  | item :: rest => item ++ .mark (.symbol .comma) :: Piece.listed rest

/-- Pieces in parentheses. -/
def Piece.parenthesized (inner : List Piece) : List Piece :=
  .mark (.symbol .parenOpen) :: (inner ++ [.mark (.symbol .parenClose)])

/-- Pieces in braces. -/
def Piece.braced (inner : List Piece) : List Piece :=
  .mark (.symbol .braceOpen) :: (inner ++ [.mark (.symbol .braceClose)])

/-- The pieces of arguments in parentheses. -/
def argumentForm (args : List Expr) : List Piece :=
  Piece.parenthesized (Piece.listed (args.map fun arg => [.expr arg]))

/-- The pieces of a call. -/
def callForm (receiver : Option Name) (callee : Name) (args : List Expr) : List Piece :=
  match receiver with
  | some receiver => .name receiver :: .mark (.symbol .dot) :: .name callee :: argumentForm args
  | none => .name callee :: argumentForm args

/-- The pieces of an expression. -/
def Expr.form : Expr → List Piece
  | .binary op left right _ => [.expr left, .mark (.symbol op.symbol), .expr right]
  | .unary op operand _ => [.mark (.symbol op.symbol), .expr operand]
  | .integer value _ => [.mark (.integer value)]
  | .string content _ => [.mark (.string content)]
  | .boolean true _ => [.mark (.keyword .true)]
  | .boolean false _ => [.mark (.keyword .false)]
  | .null _ => [.mark (.keyword .null)]
  | .this _ => [.mark (.keyword .this)]
  | .variable name span => [.name ⟨name, span⟩]
  | .element array index _ =>
    [.name array, .mark (.symbol .bracketOpen), .expr index, .mark (.symbol .bracketClose)]
  | .call receiver callee args _ => callForm receiver callee args
  | .group inner _ => Piece.parenthesized [.expr inner]

/-- The pieces of a block. -/
def blockForm (body : List Stmt) : List Piece := Piece.braced (body.map .stmt)

/-- The pieces of a statement. -/
def Stmt.form : Stmt → List Piece
  | .assign target value _ =>
    [.mark (.keyword .let), .name target, .mark (.symbol .equals), .expr value,
      .mark (.symbol .semicolon)]
  | .assignElement array index value _ =>
    [.mark (.keyword .let), .name array, .mark (.symbol .bracketOpen), .expr index,
      .mark (.symbol .bracketClose), .mark (.symbol .equals), .expr value,
      .mark (.symbol .semicolon)]
  | .branch condition thenBody elseBody _ =>
    .mark (.keyword .if) :: (Piece.parenthesized [.expr condition] ++
      (blockForm thenBody ++ [.otherwise elseBody]))
  | .loop condition body _ =>
    .mark (.keyword .while) :: (Piece.parenthesized [.expr condition] ++ blockForm body)
  | .call receiver callee args _ =>
    .mark (.keyword .do) :: (callForm receiver callee args ++ [.mark (.symbol .semicolon)])
  | .leave none _ => [.mark (.keyword .return), .mark (.symbol .semicolon)]
  | .leave (some result) _ =>
    [.mark (.keyword .return), .expr result, .mark (.symbol .semicolon)]

/-- The pieces of a declaration of names. -/
def declarationForm (word : Keyword) (type : JackType) (names : List Name) : List Piece :=
  .mark (.keyword word) :: .mark type.lexeme ::
    (Piece.listed (names.map fun name => [.name name]) ++ [.mark (.symbol .semicolon)])

/-- The pieces of class variables that are declared together. -/
def ClassVariable.Form (form : List Piece) (vars : List ClassVariable) : Prop :=
  ∃ storage type names, vars = names.map (fun name => ⟨storage, type, name⟩) ∧
    form = declarationForm storage.keyword type names

/-- The pieces of local variables that are declared together. -/
def Variable.Form (form : List Piece) (locals : List Variable) : Prop :=
  ∃ type names, locals = names.map (fun name => ⟨type, name⟩) ∧
    form = declarationForm .var type names

/-- The pieces of a parameter. -/
def parameterForm (param : Variable) : List Piece :=
  [.mark param.type.lexeme, .name param.name]

/-- The pieces of parameters in parentheses. -/
def parametersForm (params : List Variable) : List Piece :=
  Piece.parenthesized (Piece.listed (params.map parameterForm))

/-- The pieces of a subroutine. Its local variables may be declared together or one by one. -/
def Subroutine.Form (form : List Piece) (subroutine : Subroutine) : Prop :=
  ∃ groups locals, Consecutive Variable.Form locals groups ∧
    subroutine.locals = groups.flatten ∧
    form = .mark (.keyword subroutine.kind.keyword) :: .mark subroutine.result.lexeme ::
      .name subroutine.name :: (parametersForm subroutine.params ++
        Piece.braced (locals ++ subroutine.body.map .stmt))

/-- The pieces of a class. Its variables may be declared together or one by one. -/
def Class.Form (form : List Piece) (cls : Class) : Prop :=
  ∃ groups vars subroutines, Consecutive ClassVariable.Form vars groups ∧
    cls.vars = groups.flatten ∧ Consecutive Subroutine.Form subroutines cls.subroutines ∧
    form = .mark (.keyword .class) :: .name cls.name :: Piece.braced (vars ++ subroutines)

/-- The span of an expression on lexemes. That of an infix operator is made from the spans of its
operands, and any other one from the first lexeme and the last one. -/
def Expr.Spans (taken : List (Spanned Lexeme)) : Expr → Prop
  | .binary _ left right span => span = left.span.merge right.span
  | expr => expr.span = spanOf taken

/-- Lexemes that write pieces one after the other. -/
inductive Writes : List (Spanned Lexeme) → List Piece → Prop
  | nil : Writes [] []
  | mark (token : Spanned Lexeme) {taken : List (Spanned Lexeme)} {form : List Piece}
      (rest : Writes taken form) : Writes (token :: taken) (.mark token.node :: form)
  | name (name : Name) {taken : List (Spanned Lexeme)} {form : List Piece}
      (rest : Writes taken form) : Writes (nameToken name :: taken) (.name name :: form)
  | expr {expr : Expr} {own taken : List (Spanned Lexeme)} {form : List Piece}
      (inside : Writes own expr.form) (span : expr.Spans own) (rest : Writes taken form) :
      Writes (own ++ taken) (.expr expr :: form)
  | stmt {stmt : Stmt} {own taken : List (Spanned Lexeme)} {form : List Piece}
      (inside : Writes own stmt.form) (span : stmt.span = spanOf own)
      (rest : Writes taken form) : Writes (own ++ taken) (.stmt stmt :: form)
  | omitted {taken : List (Spanned Lexeme)} {form : List Piece} (rest : Writes taken form) :
      Writes taken (.otherwise [] :: form)
  | otherwise {body : List Stmt} {own taken : List (Spanned Lexeme)} {form : List Piece}
      (inside : Writes own (.mark (.keyword .else) :: blockForm body))
      (rest : Writes taken form) : Writes (own ++ taken) (.otherwise body :: form)

/-! ## Rules of writing -/

section Rules

variable {front back taken own : List (Spanned Lexeme)} {form other : List Piece}

/-- Lexemes that write pieces one after the other write all of them. -/
theorem Writes.append (first : Writes front form) (second : Writes back other) :
    Writes (front ++ back) (form ++ other) := by
  induction first with
  | nil => exact second
  | mark token _ ih => exact .mark token ih
  | name name _ ih => exact .name name ih
  | expr inside span _ _ ih =>
    rw [List.append_assoc]
    exact .expr inside span ih
  | stmt inside span _ _ ih =>
    rw [List.append_assoc]
    exact .stmt inside span ih
  | omitted _ ih => exact .omitted ih
  | otherwise inside _ _ ih =>
    rw [List.append_assoc]
    exact .otherwise inside ih

/-- A lexeme that is taken writes itself. -/
theorem writes_mark {lexeme : Lexeme} (nodes : taken.map Spanned.node = [lexeme]) :
    Writes taken [.mark lexeme] := by
  obtain ⟨token, rfl, rfl⟩ := List.map_eq_singleton_iff.mp nodes
  exact .mark token .nil

/-- One lexeme writes itself. -/
theorem writes_token {lexeme : Lexeme} {token : Spanned Lexeme} (same : token.node = lexeme) :
    Writes [token] [.mark lexeme] :=
  writes_mark (congrArg (· :: []) same)

/-- The token of a name writes it. -/
theorem writes_name (name : Name) : Writes [nameToken name] [.name name] := .name name .nil

/-- An expression is written with its pieces. -/
theorem writes_expr {expr : Expr} (inside : Writes own expr.form) (span : expr.Spans own) :
    Writes own [.expr expr] := by
  have single := Writes.expr inside span .nil
  rwa [List.append_nil] at single

/-- A statement is written with its pieces. -/
theorem writes_stmt {stmt : Stmt} (inside : Writes own stmt.form) (span : stmt.span = spanOf own) :
    Writes own [.stmt stmt] := by
  have single := Writes.stmt inside span .nil
  rwa [List.append_nil] at single

/-- A comma stands behind an item that is not the last one. -/
theorem Piece.listed_cons_cons (first second : List Piece) (rest : List (List Piece)) :
    Piece.listed (first :: second :: rest) =
      first ++ .mark (.symbol .comma) :: Piece.listed (second :: rest) := rfl

/-- Parts with commas between them write the items of a list. -/
theorem writes_listed {α : Type} {write : α → List Piece} {values : List α}
    (separated : Separated (fun part value => Writes part (write value)) taken values) :
    Writes taken (Piece.listed (values.map write)) := by
  induction separated with
  | last own => exact own
  | @cons front back comma value values first mark rest ih =>
    have behind : Writes (comma :: back) (.mark (.symbol .comma) :: Piece.listed (values.map write)) :=
      mark ▸ .mark comma ih
    cases rest with
    | last own => exact first.append behind
    | cons second _ _ => exact first.append behind

/-- Consecutive parts write consecutive pieces. -/
theorem writes_consecutive {α : Type} {write : α → Piece} {values : List α}
    (consecutive : Consecutive (fun part value => Writes part [write value]) taken values) :
    Writes taken (values.map write) := by
  induction consecutive with
  | nil => exact .nil
  | cons first _ ih => exact first.append ih

/-! ## Pieces of pieces -/

variable {piece : Piece}

/-- A piece is one of the pieces or a piece of one of them. -/
inductive Holds (piece : Piece) : List Piece → Prop
  | here {form : List Piece} : Holds piece (piece :: form)
  | expr {expr : Expr} {form : List Piece} (inside : Holds piece expr.form) :
      Holds piece (.expr expr :: form)
  | stmt {stmt : Stmt} {form : List Piece} (inside : Holds piece stmt.form) :
      Holds piece (.stmt stmt :: form)
  | otherwise {body : List Stmt} {form : List Piece} (inside : Holds piece (body.map .stmt)) :
      Holds piece (.otherwise body :: form)
  | behind {first : Piece} {form : List Piece} (rest : Holds piece form) :
      Holds piece (first :: form)

/-- A piece of the first pieces is a piece of all. -/
theorem Holds.append_left (holds : Holds piece form) (other : List Piece) :
    Holds piece (form ++ other) := by
  induction holds with
  | here => exact .here
  | expr inside _ => exact .expr inside
  | stmt inside _ => exact .stmt inside
  | otherwise inside _ => exact .otherwise inside
  | behind _ ih => exact .behind ih

/-- A piece of the last pieces is a piece of all. -/
theorem Holds.append_right (holds : Holds piece other) (form : List Piece) :
    Holds piece (form ++ other) := by
  induction form with
  | nil => exact holds
  | cons first rest ih => exact .behind ih

/-- A piece of an item is a piece of the list. -/
theorem Holds.listed {items : List (List Piece)} {item : List Piece} (member : item ∈ items)
    (holds : Holds piece item) : Holds piece (Piece.listed items) := by
  induction items with
  | nil => contradiction
  | cons first rest ih =>
    cases rest with
    | nil =>
      obtain rfl := List.mem_singleton.mp member
      exact holds
    | cons second rest =>
      rw [Piece.listed_cons_cons]
      rcases List.mem_cons.mp member with rfl | later
      · exact holds.append_left _
      · exact Holds.append_right (.behind (ih later)) first

/-- A piece inside parentheses. -/
theorem Holds.parenthesized (holds : Holds piece form) :
    Holds piece (Piece.parenthesized form) :=
  .behind (holds.append_left _)

/-- A piece inside braces. -/
theorem Holds.braced (holds : Holds piece form) : Holds piece (Piece.braced form) :=
  .behind (holds.append_left _)

/-- Some of the lexemes that write pieces write a piece of them. -/
theorem Writes.part (writes : Writes taken form) (holds : Holds piece form) :
    ∃ front own back, taken = front ++ (own ++ back) ∧ Writes own [piece] := by
  have behind (before : List (Spanned Lexeme)) {taken : List (Spanned Lexeme)}
      (rest : ∃ front own back, taken = front ++ (own ++ back) ∧ Writes own [piece]) :
      ∃ front own back, before ++ taken = front ++ (own ++ back) ∧ Writes own [piece] := by
    obtain ⟨front, own, back, rfl, part⟩ := rest
    exact ⟨before ++ front, own, back, (List.append_assoc _ _ _).symm, part⟩
  have before (after : List (Spanned Lexeme)) {taken : List (Spanned Lexeme)}
      (rest : ∃ front own back, taken = front ++ (own ++ back) ∧ Writes own [piece]) :
      ∃ front own back, taken ++ after = front ++ (own ++ back) ∧ Writes own [piece] := by
    obtain ⟨front, own, back, rfl, part⟩ := rest
    exact ⟨front, own, back ++ after, by simp only [List.append_assoc], part⟩
  induction writes with
  | nil => cases holds
  | @mark token taken form rest ih =>
    cases holds with
    | here => exact ⟨[], [token], taken, rfl, .mark token .nil⟩
    | behind later => exact behind [token] (ih later)
  | @name name taken form rest ih =>
    cases holds with
    | here => exact ⟨[], [nameToken name], taken, rfl, .name name .nil⟩
    | behind later => exact behind [nameToken name] (ih later)
  | @expr expr own taken form inside span rest ihInside ih =>
    cases holds with
    | here => exact ⟨[], own, taken, rfl, writes_expr inside span⟩
    | expr deeper => exact before taken (ihInside deeper)
    | behind later => exact behind own (ih later)
  | @stmt stmt own taken form inside span rest ihInside ih =>
    cases holds with
    | here => exact ⟨[], own, taken, rfl, writes_stmt inside span⟩
    | stmt deeper => exact before taken (ihInside deeper)
    | behind later => exact behind own (ih later)
  | @omitted taken form rest ih =>
    cases holds with
    | here => exact ⟨[], [], taken, rfl, .omitted .nil⟩
    | otherwise deeper => cases deeper
    | behind later => exact ih later
  | @otherwise body own taken form inside rest ihInside ih =>
    cases holds with
    | here =>
      have single : Writes (own ++ []) [.otherwise body] := .otherwise inside .nil
      rw [List.append_nil] at single
      exact ⟨[], own, taken, rfl, single⟩
    | otherwise deeper => exact before taken (ihInside (.behind deeper.braced))
    | behind later => exact behind own (ih later)

/-- The lexemes that write pieces have a token for each name that is a piece of them. -/
theorem Writes.nameToken_mem {name : Name} (writes : Writes taken form)
    (holds : Holds (.name name) form) : nameToken name ∈ taken := by
  obtain ⟨front, own, back, rfl, part⟩ := writes.part holds
  cases part with
  | name name rest => simp

end Rules

end JackToolchain.Jack
