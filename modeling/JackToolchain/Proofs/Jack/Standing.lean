import JackToolchain.Proofs.Jack.Pieces
import JackToolchain.Proofs.Jack.Recognition
import JackToolchain.Proofs.Jack.Segmentation

/-!
# Where trees stand

The readers of the grammar take lexemes that write what they read, places included. So the names of
a class that is read stand in its source text where they say.
-/
namespace JackToolchain.Jack

open Reader

/-! ## Marks and lists -/

/-- A lexeme that must come next writes itself. -/
theorem consumes_mark {lexeme : Lexeme} (some : lexeme ≠ .eof) :
    Consumes (fun taken _ => Writes taken [.mark lexeme]) (expect lexeme) :=
  (consumes_expect some).weaken fun _ _ nodes => writes_mark nodes

/-- Items in parentheses with commas between them; there may be none. -/
theorem consumes_parenthesized {α : Type} {write : α → List Piece} {item : Reader α}
    (own : Consumes (fun taken value => Writes taken (write value)) item) :
    Consumes (fun taken values =>
        Writes taken (Piece.parenthesized (Piece.listed (values.map write))))
      (parenthesizedItems item) := by
  have close (opening front : List (Spanned Lexeme)) (values : List α)
      (opens : Writes opening [.mark (.symbol .parenOpen)])
      (listed : Writes front (Piece.listed (values.map write))) :
      Consumes (fun back values => Writes (opening ++ (front ++ back))
          (Piece.parenthesized (Piece.listed (values.map write))))
        (expect (.symbol .parenClose) >>= fun _ => pure values) := by
    refine (consumes_mark (by simp)).bind fun closing _ closes => consumes_pure ?_
    rw [List.append_nil]
    exact opens.append (listed.append closes)
  refine (consumes_mark (by simp)).bind fun opening _ opens => ?_
  refine consumes_peek fun found => ?_
  by_cases empty : found = .symbol .parenClose
  · rw [if_pos empty]
    have none : Consumes (fun taken values => Writes taken (Piece.listed (values.map write)))
        (pure []) := consumes_pure .nil
    exact (none.bind fun front values listed => close opening front values opens listed).from
  · rw [if_neg empty]
    have some := (consumes_commaSeparated own).weaken fun taken values separated =>
      writes_listed separated
    exact (some.bind fun front values listed => close opening front values opens listed).from

/-! ## Expressions -/

section Expressions

variable {inner inside : Reader Expr}

/-- Lexemes that write an expression. -/
def WritesExpr (taken : List (Spanned Lexeme)) (expr : Expr) : Prop := Writes taken [.expr expr]

/-- Lexemes that write the expression that is built with their span. -/
def WritesBuilt (taken : List (Spanned Lexeme)) (build : Span → Expr) : Prop :=
  taken ≠ [] ∧ WritesExpr taken (build (spanOf taken))

/-- The arguments of a call. -/
theorem consumes_arguments (own : Consumes WritesExpr inner) :
    Consumes (fun taken args => Writes taken (argumentForm args)) (arguments inner) :=
  @consumes_parenthesized Expr (fun arg => [.expr arg]) inner own

/-- A call after its first name. -/
theorem consumes_callAfter (own : Consumes WritesExpr inner) (first : Name) :
    Consumes (fun taken call =>
        Writes (nameToken first :: taken) (callForm call.1 call.2.1 call.2.2))
      (callAfter inner first) := by
  refine (consumes_accept (by simp)).bind fun front there mark => ?_
  cases there with
  | true =>
    have dot : Writes front [.mark (.symbol .dot)] := writes_mark mark
    refine consumes_identifier.bind fun _ callee named => ?_
    subst named
    refine (consumes_arguments own).bind fun back args written => consumes_pure ?_
    rw [List.append_nil]
    exact .name first (dot.append (.name callee written))
  | false =>
    have none : front = [] := List.map_eq_nil_iff.mp mark
    subst none
    refine (consumes_arguments own).bind fun back args written => consumes_pure ?_
    rw [List.append_nil]
    exact .name first written

/-- What follows a name in an expression. -/
theorem consumes_nameTerm (own : Consumes WritesExpr inner) (name : Name) :
    Consumes (fun taken build => WritesBuilt (nameToken name :: taken) build)
      (nameTerm inner name) := by
  have call : Consumes (fun taken build => WritesBuilt (nameToken name :: taken) build)
      (callAfter inner name >>= fun call => pure (Expr.call call.1 call.2.1 call.2.2)) := by
    refine (consumes_callAfter own name).bind fun taken call written => consumes_pure ?_
    rw [List.append_nil]
    exact ⟨List.cons_ne_nil _ _, writes_expr written rfl⟩
  refine consumes_peek fun found => ?_
  split
  · refine consumesFrom_advance (by simp) fun opening mark => ?_
    refine own.bind fun front index written => ?_
    refine (consumes_mark (by simp)).bind fun closing _ closes => consumes_pure ?_
    have opens : Writes [opening] [.mark (.symbol .bracketOpen)] := writes_token mark
    rw [List.append_nil]
    refine ⟨List.cons_ne_nil _ _, writes_expr ?_ rfl⟩
    exact .name name (opens.append (written.append closes))
  · exact call.from
  · exact call.from
  · have place : spanOf [nameToken name] = name.span := spanOf_singleton (nameToken name)
    have written : WritesBuilt [nameToken name] (.variable name.node) := by
      refine ⟨List.cons_ne_nil _ _, writes_expr ?_ rfl⟩
      rw [place]
      exact writes_name name
    exact Consumes.from (consumes_pure written)

/-- A lexeme that is a whole expression. -/
theorem consumesFrom_leaf {found : Lexeme} (some : found ≠ .eof) {build : Span → Expr}
    (form : ∀ span, (build span).form = [.mark found])
    (spans : ∀ taken, (build (spanOf taken)).Spans taken) :
    ConsumesFrom found WritesBuilt (leaf build) := by
  refine consumesFrom_advance some fun token same => consumes_pure ?_
  refine ⟨List.cons_ne_nil _ _, writes_expr ?_ (spans [token])⟩
  rw [form, ← same]
  exact .mark token .nil

/-- A sign and its operand. -/
theorem consumesFrom_sign (op : UnaryOp) (own : Consumes WritesExpr inside) :
    ConsumesFrom (.symbol op.symbol) WritesBuilt
      (Reader.advance >>= fun _ => inside >>= fun operand => pure (Expr.unary op operand)) := by
  refine consumesFrom_advance (by simp) fun token same => ?_
  refine own.bind fun taken operand written => consumes_pure ?_
  have sign : Writes [token] [.mark (.symbol op.symbol)] := writes_token same
  rw [List.append_nil]
  exact ⟨List.cons_ne_nil _ _, writes_expr (sign.append written) rfl⟩

/-- An expression without operators at its top. -/
theorem consumes_term (own : Consumes WritesExpr inner) (ownOperand : Consumes WritesExpr inside) :
    Consumes WritesExpr (term inner inside) := by
  refine consumes_spanned (consumes_peek fun found => ?_)
  split
  · exact consumesFrom_leaf (by simp) (fun span => rfl) fun taken => rfl
  · exact consumesFrom_leaf (by simp) (fun span => rfl) fun taken => rfl
  · exact consumesFrom_leaf (by simp) (fun span => rfl) fun taken => rfl
  · exact consumesFrom_leaf (by simp) (fun span => rfl) fun taken => rfl
  · exact consumesFrom_leaf (by simp) (fun span => rfl) fun taken => rfl
  · exact consumesFrom_leaf (by simp) (fun span => rfl) fun taken => rfl
  · refine consumesFrom_advance (by simp) fun opening mark => ?_
    refine own.bind fun front value written => ?_
    refine (consumes_mark (by simp)).bind fun closing _ closes => consumes_pure ?_
    have opens : Writes [opening] [.mark (.symbol .parenOpen)] := writes_token mark
    rw [List.append_nil]
    exact ⟨List.cons_ne_nil _ _, writes_expr (opens.append (written.append closes)) rfl⟩
  · exact consumesFrom_sign .neg ownOperand
  · exact consumesFrom_sign .not ownOperand
  · refine (consumes_identifier.bind fun _ name named => ?_).from
    subst named
    exact consumes_nameTerm own name
  · exact consumes_refuse.from

/-- An operator may be taken. -/
theorem consumes_acceptOperator (floor : Nat) :
    Consumes (fun taken op? =>
        taken.map Spanned.node = op?.elim [] fun op => [.symbol op.symbol])
      (acceptOperator floor) := by
  refine consumes_peek fun found => ?_
  split
  · rename_i op known
    obtain rfl := BinaryOp.ofLexeme?_eq_some.mp known
    split
    · refine consumesFrom_advance (by simp) fun token same => consumes_pure ?_
      exact congrArg (· :: []) same
    · exact Consumes.from (consumes_pure rfl)
  · exact Consumes.from (consumes_pure rfl)

/-- Lexemes that go on with an expression in front of them. -/
def Continues (left : Expr) (taken : List (Spanned Lexeme)) (value : Expr) : Prop :=
  ∀ front, WritesExpr front left → WritesExpr (front ++ taken) value

/-- The readers of expressions take lexemes that write what they read, at every level. The rest of
a chain of operators goes on with the expression so far. -/
theorem consumes_levels (levels : Nat) :
    Consumes WritesExpr (expression levels) ∧ Consumes WritesExpr (operand levels) ∧
      ∀ floor left, Consumes (Continues left) (operators levels floor left) := by
  have stay (left : Expr) (taken : List (Spanned Lexeme)) (none : taken.map Spanned.node = []) :
      Consumes (fun back value => Continues left (taken ++ back) value) (pure left) := by
    apply consumes_pure
    intro front written
    rw [List.append_nil, List.map_eq_nil_iff.mp none, List.append_nil]
    exact written
  induction levels with
  | zero =>
    refine ⟨?_, ?_, fun floor left => ?_⟩
    · rw [expression]
      exact consumes_refuse
    · rw [operand]
      exact consumes_refuse
    · rw [operators]
      refine (consumes_acceptOperator floor).bind fun taken op? nodes => ?_
      cases op? with
      | none => exact stay left taken nodes
      | some op => exact consumes_refuse
  | succ levels ih =>
    obtain ⟨whole, sign, chain⟩ := ih
    have first : Consumes WritesExpr (term (expression levels) (operand levels)) :=
      consumes_term whole sign
    refine ⟨?_, ?_, fun floor left => ?_⟩
    · rw [expression]
      refine first.bind fun front start written => ?_
      exact (chain 0 start).weaken fun back value goesOn => goesOn front written
    · rw [operand]
      exact first
    · rw [operators]
      refine (consumes_acceptOperator floor).bind fun taken op? nodes => ?_
      cases op? with
      | none => exact stay left taken nodes
      | some op =>
        have mark : Writes taken [.mark (.symbol op.symbol)] := writes_mark nodes
        refine first.bind fun middle start written => ?_
        refine (chain op.rightPower start).bind fun back right goesOn => ?_
        have rightWritten : WritesExpr (middle ++ back) right := goesOn middle written
        refine (chain floor _).weaken fun last value finishes front leftWritten => ?_
        -- The operation is written by both operands with the mark between them.
        have folded : WritesExpr (front ++ (taken ++ (middle ++ back)))
            (.binary op left right (left.span.merge right.span)) :=
          writes_expr (leftWritten.append (mark.append rightWritten)) rfl
        have whole := finishes _ folded
        simpa only [List.append_assoc] using whole

end Expressions

/-! ## Statements -/

section Statements

variable {inner : Reader Expr} {body : Reader (List Stmt)}

/-- What a reader of statements is to take after the first word. -/
def ConsumesStmt (word : Keyword) (reader : Reader (Span → Stmt)) : Prop :=
  Consumes (fun taken build => ∀ token : Spanned Lexeme, token.node = .keyword word →
    ∀ span, (build span).span = span ∧ Writes (token :: taken) (build span).form) reader

/-- Lexemes that write a block. -/
def WritesBlock (taken : List (Spanned Lexeme)) (stmts : List Stmt) : Prop :=
  Writes taken (blockForm stmts)

/-- An expression in parentheses. -/
theorem consumes_condition (own : Consumes WritesExpr inner) :
    Consumes (fun taken value => Writes taken (Piece.parenthesized [.expr value]))
      (condition inner) := by
  refine (consumes_mark (by simp)).bind fun opening _ opens => ?_
  refine own.bind fun front value written => ?_
  refine (consumes_mark (by simp)).bind fun closing _ closes => consumes_pure ?_
  rw [List.append_nil]
  exact opens.append (written.append closes)

/-- An assignment after its first word. -/
theorem consumes_assignment (own : Consumes WritesExpr inner) :
    ConsumesStmt .let (assignment inner) := by
  refine consumes_identifier.bind fun _ target named => ?_
  subst named
  have close {meant : List (Spanned Lexeme) → (Span → Stmt) → Prop}
      {last : Expr → Reader (Span → Stmt)}
      (ends : ∀ taken value, Writes taken [.mark (.symbol .equals), .expr value,
          .mark (.symbol .semicolon)] →
        Consumes (fun back build => meant (taken ++ back) build) (last value)) :
      Consumes meant (do
        expect (.symbol .equals)
        let value ← inner
        expect (.symbol .semicolon)
        last value) := by
    refine (consumes_mark (by simp)).bind fun equals _ marks => ?_
    refine own.bind fun front value written => ?_
    refine (consumes_mark (by simp)).bind fun closing _ closes => ?_
    have whole := ends _ value (marks.append (written.append closes))
    simpa only [List.append_assoc] using whole
  refine (consumes_accept (by simp)).bind fun opening there first => ?_
  cases there with
  | true =>
    have opens : Writes opening [.mark (.symbol .bracketOpen)] := writes_mark first
    refine own.bind fun front index written => ?_
    refine (consumes_mark (by simp)).bind fun closing _ closes => ?_
    rw [pure_bind]
    refine close fun back value ending => consumes_pure fun token word span => ⟨rfl, ?_⟩
    have whole := opens.append (written.append (closes.append ending))
    rw [List.append_nil]
    exact (writes_token word).append (.name target whole)
  | false =>
    have none : opening = [] := List.map_eq_nil_iff.mp first
    subst none
    dsimp only
    rw [pure_bind]
    refine close fun back value ending => consumes_pure fun token word span => ⟨rfl, ?_⟩
    rw [List.append_nil]
    exact (writes_token word).append (.name target ending)

/-- A branch after its first word. -/
theorem consumes_branch (own : Consumes WritesExpr inner) (block : Consumes WritesBlock body) :
    ConsumesStmt .if (branch inner body) := by
  refine (consumes_condition own).bind fun front test testWritten => ?_
  refine block.bind fun middle thenBody thenWritten => ?_
  have close (back : List (Spanned Lexeme)) (elseBody : List Stmt)
      (elseWritten : Writes back [.otherwise elseBody]) (token : Spanned Lexeme)
      (word : token.node = .keyword .if) (span : Span) :
      Writes (token :: (front ++ (middle ++ back)))
        (Stmt.branch test thenBody elseBody span).form :=
    (writes_token word).append (testWritten.append (thenWritten.append elseWritten))
  refine (consumes_accept (by simp)).bind fun opening there mark => ?_
  cases there with
  | true =>
    refine block.bind fun back elseBody elseWritten => consumes_pure fun token word span => ?_
    have elseMark : Writes opening [.mark (.keyword .else)] := writes_mark mark
    have otherwise : Writes (opening ++ back ++ []) [.otherwise elseBody] :=
      .otherwise (elseMark.append elseWritten) .nil
    rw [List.append_assoc] at otherwise
    exact ⟨rfl, close _ elseBody otherwise token word span⟩
  | false =>
    have none : opening = [] := List.map_eq_nil_iff.mp mark
    subst none
    dsimp only
    rw [pure_bind]
    exact consumes_pure fun token word span => ⟨rfl, close [] [] (.omitted .nil) token word span⟩

/-- A loop after its first word. -/
theorem consumes_loop (own : Consumes WritesExpr inner) (block : Consumes WritesBlock body) :
    ConsumesStmt .while (loop inner body) := by
  refine (consumes_condition own).bind fun front test testWritten => ?_
  refine block.bind fun back stmts written => consumes_pure fun token word span => ⟨rfl, ?_⟩
  rw [List.append_nil]
  exact (writes_token word).append (testWritten.append written)

/-- A call statement after its first word. -/
theorem consumes_callStatement (own : Consumes WritesExpr inner) :
    ConsumesStmt .do (callStatement inner) := by
  refine consumes_identifier.bind fun _ first named => ?_
  subst named
  refine (consumes_callAfter own first).bind fun front call written => ?_
  refine (consumes_mark (by simp)).bind fun closing _ closes => ?_
  refine consumes_pure fun token word span => ⟨rfl, ?_⟩
  rw [List.append_nil]
  exact (writes_token word).append (written.append closes)

/-- A return statement after its first word. -/
theorem consumes_returnStatement (own : Consumes WritesExpr inner) :
    ConsumesStmt .return (returnStatement inner) := by
  refine consumes_peek fun found => ?_
  by_cases ends : found = .symbol .semicolon
  · rw [if_pos ends, pure_bind]
    refine Consumes.from ((consumes_mark (by simp)).bind fun closing _ closes => ?_)
    refine consumes_pure fun token word span => ⟨rfl, ?_⟩
    rw [List.append_nil]
    exact (writes_token word).append closes
  · rw [if_neg ends]
    refine Consumes.from (own.bind fun front value written => ?_)
    rw [pure_bind]
    refine (consumes_mark (by simp)).bind fun closing _ closes => ?_
    refine consumes_pure fun token word span => ⟨rfl, ?_⟩
    rw [List.append_nil]
    exact (writes_token word).append (written.append closes)

/-- A statement. -/
theorem consumes_statement (own : Consumes WritesExpr inner) (block : Consumes WritesBlock body) :
    Consumes (fun taken stmt => Writes taken [.stmt stmt]) (statement inner body) := by
  have word {own : Keyword} {reader : Reader (Span → Stmt)} (after : ConsumesStmt own reader) :
      ConsumesFrom (.keyword own)
        (fun taken build => taken ≠ [] ∧ Writes taken [.stmt (build (spanOf taken))])
        (Reader.advance >>= fun _ => reader) := by
    refine consumesFrom_advance (by simp) fun token same => ?_
    refine Consumes.weaken after fun taken build written => ⟨List.cons_ne_nil _ _, ?_⟩
    obtain ⟨span, form⟩ := written token same (spanOf (token :: taken))
    exact writes_stmt form span
  refine consumes_spanned (consumes_peek fun found => ?_)
  split
  · exact word (consumes_assignment own)
  · exact word (consumes_branch own block)
  · exact word (consumes_loop own block)
  · exact word (consumes_callStatement own)
  · exact word (consumes_returnStatement own)
  · exact consumes_refuse.from

/-- Statements. -/
theorem consumes_statementsWith {item : Reader Stmt}
    (own : Consumes (fun taken stmt => Writes taken [.stmt stmt]) item) :
    Consumes (fun taken stmts => Writes taken (stmts.map .stmt)) (statementsWith item) :=
  (consumes_repeat fun _ _ => own.from).weaken fun _ _ consecutive =>
    writes_consecutive consecutive

/-- A block, at every level. -/
theorem consumes_block (levels : Nat) : Consumes WritesBlock (block levels) := by
  induction levels with
  | zero =>
    rw [block]
    exact (consumes_expect (by simp)).bind fun _ _ _ => consumes_refuse
  | succ levels ih =>
    rw [block]
    refine (consumes_mark (by simp)).bind fun opening _ opens => ?_
    have stmts := consumes_statementsWith (consumes_statement (consumes_levels levels).1 ih)
    refine stmts.bind fun front body written => ?_
    refine (consumes_mark (by simp)).bind fun closing _ closes => consumes_pure ?_
    rw [List.append_nil]
    exact opens.append (written.append closes)

/-- The statements of a subroutine. -/
theorem consumes_statements (levels : Nat) :
    Consumes (fun taken stmts => Writes taken (stmts.map .stmt)) (statements levels) :=
  consumes_statementsWith (consumes_statement (consumes_levels levels).1 (consumes_block levels))

end Statements

/-! ## Classes -/

section Classes

/-- Lexemes that write one of the forms of a value. -/
def WritesForm {α : Type} (forms : List Piece → α → Prop) (taken : List (Spanned Lexeme))
    (value : α) : Prop :=
  ∃ form, forms form value ∧ Writes taken form

/-- Consecutive parts that write values one by one write consecutive pieces. -/
theorem writesForm_consecutive {α : Type} {forms : List Piece → α → Prop}
    {taken : List (Spanned Lexeme)} {values : List α}
    (consecutive : Consecutive (WritesForm forms) taken values) :
    WritesForm (Consecutive forms) taken values := by
  induction consecutive with
  | nil => exact ⟨[], .nil, .nil⟩
  | cons head _ ih =>
    obtain ⟨form, own, written⟩ := head
    obtain ⟨others, rest, restWritten⟩ := ih
    exact ⟨form ++ others, .cons own rest, written.append restWritten⟩

/-- The lexeme of a type. -/
theorem consumes_typeName :
    Consumes (fun taken type => Writes taken [.mark (JackType.lexeme type)]) typeName := by
  have own {found : Lexeme} {type : JackType} (same : found = type.lexeme) (some : found ≠ .eof) :
      ConsumesFrom found (fun taken type => Writes taken [.mark (JackType.lexeme type)])
        (Reader.advance >>= fun _ => pure type) := by
    subst same
    exact consumesFrom_advance some fun token node => consumes_pure (writes_token node)
  refine consumes_peek fun found => ?_
  dsimp only
  split
  · rw [pure_bind]
    exact own rfl (by simp)
  · rw [pure_bind]
    exact own rfl (by simp)
  · rw [pure_bind]
    exact own rfl (by simp)
  · rw [pure_bind]
    exact own rfl (by simp)
  · intro cursor value after same run
    cases run

/-- The names of a declaration, and the mark that ends it. -/
theorem consumes_declaredNames :
    Consumes (fun taken names => Writes taken
      (Piece.listed (names.map fun name => [.name name]) ++ [.mark (.symbol .semicolon)]))
      declaredNames := by
  have item : Consumes (fun taken name => Writes taken [.name name]) identifier :=
    consumes_identifier.weaken fun taken name same => same ▸ writes_name name
  refine (consumes_commaSeparated item).bind fun front names separated => ?_
  refine (consumes_mark (by simp)).bind fun closing _ closes => consumes_pure ?_
  have listed : Writes front (Piece.listed (names.map fun name => [.name name])) :=
    writes_listed separated
  rw [List.append_nil]
  exact listed.append closes

/-- A declaration of class variables. -/
theorem consumes_classVariables {found : Lexeme}
    (declares : (ClassStorage.ofLexeme? found).isSome = true) :
    ConsumesFrom found (WritesForm ClassVariable.Form) classVariables := by
  obtain ⟨storage, known⟩ := Option.isSome_iff_exists.mp declares
  obtain rfl := ClassStorage.ofLexeme?_eq_some known
  refine consumesFrom_peek ?_
  rw [known]
  refine consumesFrom_advance (by simp) fun token word => ?_
  refine consumes_typeName.bind fun middle type typed => ?_
  refine consumes_declaredNames.bind fun back names written => consumes_pure ?_
  rw [List.append_nil]
  exact ⟨_, ⟨storage, type, names, rfl, rfl⟩, (writes_token word).append (typed.append written)⟩

/-- A declaration of local variables. -/
theorem consumes_localVariables : Consumes (WritesForm Variable.Form) localVariables := by
  refine (consumes_mark (by simp)).bind fun front _ declares => ?_
  refine consumes_typeName.bind fun middle type typed => ?_
  refine consumes_declaredNames.bind fun back names written => consumes_pure ?_
  rw [List.append_nil]
  exact ⟨_, ⟨type, names, rfl, rfl⟩, declares.append (typed.append written)⟩

/-- A parameter. -/
theorem consumes_parameter :
    Consumes (fun taken param => Writes taken (parameterForm param)) parameter := by
  refine consumes_typeName.bind fun front type typed => ?_
  refine consumes_identifier.bind fun _ name named => consumes_pure ?_
  subst named
  exact typed.append (writes_name name)

/-- Parameters in parentheses. -/
theorem consumes_parameters :
    Consumes (fun taken params => Writes taken (parametersForm params)) parameters :=
  consumes_parenthesized consumes_parameter

/-- Lexemes that do not stand on their own: with those in front of them that write the kind and the
result of a subroutine, they write the subroutine. -/
theorem consumes_subroutineAfter {kind : SubroutineKind} {result : JackType}
    {front : List (Spanned Lexeme)}
    (begins : Writes front [.mark (.keyword kind.keyword), .mark result.lexeme]) :
    Consumes (fun taken own => WritesForm Subroutine.Form (front ++ taken) own)
      (subroutineAfter kind result) := by
  refine consumes_identifier.bind fun _ name named => ?_
  subst named
  refine consumes_parameters.bind fun listed params paramsWritten => ?_
  refine (consumes_mark (by simp)).bind fun opening _ opens => ?_
  refine (consumes_repeat fun found _ => consumes_localVariables.from).bind ?_
  intro declared groups consecutive
  refine (consumes_statements nestingLimit).bind fun stmts body bodyWritten => ?_
  refine (consumes_mark (by simp)).bind fun closing _ closes => consumes_pure ?_
  obtain ⟨locals, grouped, localsWritten⟩ := writesForm_consecutive consecutive
  have inBraces : Writes (opening ++ (declared ++ (stmts ++ closing)))
      (Piece.braced (locals ++ body.map .stmt)) := by
    have both := opens.append ((localsWritten.append bodyWritten).append closes)
    rwa [List.append_assoc declared] at both
  rw [List.append_nil]
  exact ⟨_, ⟨groups, locals, grouped, rfl, rfl⟩,
    begins.append (.name name (paramsWritten.append inBraces))⟩

/-- A subroutine. -/
theorem consumes_subroutine {found : Lexeme}
    (declares : (SubroutineKind.ofLexeme? found).isSome = true) :
    ConsumesFrom found (WritesForm Subroutine.Form) subroutine := by
  obtain ⟨kind, known⟩ := Option.isSome_iff_exists.mp declares
  obtain rfl := SubroutineKind.ofLexeme?_eq_some known
  rw [subroutine_eq]
  refine consumesFrom_peek ?_
  rw [known]
  refine consumesFrom_advance (by simp) fun token word => ?_
  refine (consumes_accept (by simp)).bind fun front nothing mark => ?_
  cases nothing with
  | true =>
    have result : Writes front [.mark JackType.void.lexeme] := writes_mark mark
    exact consumes_subroutineAfter ((writes_token word).append result)
  | false =>
    have none : front = [] := List.map_eq_nil_iff.mp mark
    subst none
    refine consumes_typeName.bind fun middle result typed => ?_
    exact consumes_subroutineAfter ((writes_token word).append typed)

/-- A class. -/
theorem consumes_classDeclaration : Consumes (WritesForm Class.Form) classDeclaration := by
  refine (consumes_mark (by simp)).bind fun front _ declares => ?_
  refine consumes_identifier.bind fun _ name named => ?_
  subst named
  refine (consumes_mark (by simp)).bind fun opening _ opens => ?_
  refine (consumes_repeat fun found => consumes_classVariables).bind fun declared groups vars => ?_
  refine (consumes_repeat fun found => consumes_subroutine).bind fun bodies subroutines own => ?_
  refine (consumes_mark (by simp)).bind fun closing _ closes => consumes_pure ?_
  obtain ⟨varForm, grouped, varsWritten⟩ := writesForm_consecutive vars
  obtain ⟨bodyForm, separate, bodiesWritten⟩ := writesForm_consecutive own
  have inBraces : Writes (opening ++ (declared ++ (bodies ++ closing)))
      (Piece.braced (varForm ++ bodyForm)) := by
    have both := opens.append ((varsWritten.append bodiesWritten).append closes)
    rwa [List.append_assoc declared] at both
  rw [List.append_nil]
  exact ⟨_, ⟨groups, varForm, bodyForm, grouped, rfl, separate, rfl⟩,
    declares.append (.name name inBraces)⟩

/-- A class that is read from a source text is written with all lexemes of the text but its end, in
one of its forms. -/
theorem writes_of_readClass {source : String} {cls : Class}
    (read : readClass source = .ok cls) :
    ∃ taken last form, scan source = .ok (taken ++ [last]) ∧
      (∀ token ∈ taken, token.node ≠ .eof) ∧ cls.Form form ∧ Writes taken form := by
  obtain ⟨tokens, scanned, rest⟩ := bind_eq_ok.mp read
  obtain ⟨⟨result, after⟩, run, rest⟩ := bind_eq_ok.mp rest
  obtain rfl := Except.ok.inj rest
  obtain ⟨made, last⟩ := run_wholeClass.mp run
  obtain ⟨taken, passes, form, own, written⟩ := consumes_classDeclaration _ _ _ made
  obtain ⟨lexemes, begins, proper, -⟩ := takes_classDeclaration _ _ _ made
  obtain ⟨before, nodes, beforeProper⟩ := ends_of_scan scanned
  rw [Cursor.node_next] at last
  have left : after.lexemes = [.eof] :=
    eq_end (nodes.symm.trans begins) beforeProper proper last
  obtain ⟨ending, rest, -⟩ := List.map_eq_singleton_iff.mp left
  have split : tokens = taken ++ after.rest := passes.rest
  have same : taken.map Spanned.node = lexemes := by
    have both : tokens.map Spanned.node = lexemes ++ after.lexemes := begins
    rw [split, List.map_append] at both
    exact List.append_cancel_right both
  rw [rest] at split
  refine ⟨taken, ending, form, split ▸ scanned, fun token member isEnd => proper ?_, own, written⟩
  rw [← same, ← isEnd]
  exact List.mem_map_of_mem member

/-- A name that is a lexeme of a source text stands there. -/
theorem covers_of_name {source : String} {tokens : List (Spanned Lexeme)} {name : Name}
    (scanned : scan source = .ok tokens) (member : nameToken name ∈ tokens) :
    name.span.Covers source name.node := by
  obtain ⟨text, written, covers⟩ := standsIn_of_scan scanned _ member
  obtain rfl : text = name.node := written
  exact covers

end Classes

end JackToolchain.Jack
