import JackToolchain.Proofs.Jack.Chains

/-!
# Reading classes back

The canonical text of a spellable class is read as that class again, apart from places. Statements
are read back by cases on what they are, and the readers that repeat stop where the lexemes of their
items end.
-/
namespace JackToolchain.Jack

open Reader

/-! ## Statements -/

section Statements

variable {inner : Reader Expr} {body : Reader (List Stmt)} {span : Span}

/-- A reader takes the given lexemes and makes a statement, apart from places. -/
def AdmitsBuild (reader : Reader (Span → Stmt)) (front : List Lexeme) (stmt : Stmt) : Prop :=
  Admits reader front (· ≠ .keyword .else) fun build => ∀ place, (build place).unplaced = stmt.unplaced

/-- A reader takes the lexemes of a statement, which no else branch may follow, and makes that
statement, apart from places. -/
def AdmitsStmt (reader : Reader Stmt) (stmt : Stmt) : Prop :=
  Admits reader stmt.lexemes (· ≠ .keyword .else) fun value => value.unplaced = stmt.unplaced

/-- A reader takes the lexemes of statements up to a brace and makes those statements, apart from
places. -/
def AdmitsBody (reader : Reader (List Stmt)) (stmts : List Stmt) : Prop :=
  Admits reader (Stmt.bodyLexemes stmts) (· = .symbol .braceClose)
    fun values => values.map Stmt.unplaced = stmts.map Stmt.unplaced

/-- A reader takes the lexemes of statements in braces and makes those statements, apart from
places. -/
def AdmitsBlock (reader : Reader (List Stmt)) (stmts : List Stmt) : Prop :=
  Admits reader (braced (Stmt.bodyLexemes stmts)) anything
    fun values => values.map Stmt.unplaced = stmts.map Stmt.unplaced

/-- An expression in parentheses. -/
theorem admits_condition {test : Expr} (own : AdmitsExpr inner test Ends) :
    Admits (condition inner) (parenthesized test.lexemes) anything
      (fun value => value.unplaced = test.unplaced) := by
  have closes : Ends (.symbol .parenClose) := by decide
  refine admits_expect ?_
  exact own.bind (fun value same => admits_expect (admits_pure same)) fun _ _ => closes

/-- An assignment to a variable after its first word. -/
theorem admits_assign {target : Name} {value : Expr} (own : AdmitsExpr inner value Ends) :
    AdmitsBuild (assignment inner)
      (.identifier target.node :: .symbol .equals :: (value.lexemes ++ [.symbol .semicolon]))
      (.assign target value span) := by
  have closes : Ends (.symbol .semicolon) := by decide
  refine admits_identifier fun name named => admits_accept_other (fun _ _ => by simp) ?_
  rw [if_neg (by decide), pure_bind]
  refine admits_expect (own.bind (fun value same => admits_expect (admits_pure fun place => ?_))
    fun _ _ => closes)
  rw [Stmt.unplaced, Stmt.unplaced, unplacedName_congr named, same]

/-- An assignment to an element after its first word. -/
theorem admits_assignElement {array : Name} {index value : Expr}
    (ownIndex : AdmitsExpr inner index Ends) (own : AdmitsExpr inner value Ends) :
    AdmitsBuild (assignment inner)
      (.identifier array.node :: .symbol .bracketOpen :: (index.lexemes ++
        .symbol .bracketClose :: .symbol .equals :: (value.lexemes ++ [.symbol .semicolon])))
      (.assignElement array index value span) := by
  have closes : Ends (.symbol .semicolon) := by decide
  have closesIndex : Ends (.symbol .bracketClose) := by decide
  refine admits_identifier fun name named => admits_accept ?_
  rw [if_pos rfl]
  refine ownIndex.bind (fun index indexSame => admits_expect ?_) fun _ _ => closesIndex
  rw [pure_bind]
  refine admits_expect (own.bind (fun value same => admits_expect (admits_pure fun place => ?_))
    fun _ _ => closes)
  rw [Stmt.unplaced, Stmt.unplaced, unplacedName_congr named, indexSame, same]

/-- A branch after its first word. -/
theorem admits_branch {test : Expr} {thenBody elseBody : List Stmt}
    (own : AdmitsExpr inner test Ends) (ownThen : AdmitsBlock body thenBody)
    (ownElse : AdmitsBlock body elseBody) :
    AdmitsBuild (branch inner body)
      (parenthesized test.lexemes ++ (braced (Stmt.bodyLexemes thenBody) ++
        if elseBody.isEmpty then [] else .keyword .else :: braced (Stmt.bodyLexemes elseBody)))
      (.branch test thenBody elseBody span) := by
  refine (admits_condition own).bind (fun value same => ?_) fun _ _ => trivial
  refine Admits.bind ownThen (fun thenValues thenSame => ?_) fun _ _ => trivial
  have made (elseValues : List Stmt)
      (elseSame : elseValues.map Stmt.unplaced = elseBody.map Stmt.unplaced) (place : Span) :
      (Stmt.branch value thenValues elseValues place).unplaced =
        (Stmt.branch test thenBody elseBody span).unplaced := by
    rw [Stmt.unplaced, Stmt.unplaced, same, Stmt.allUnplaced_eq_map, Stmt.allUnplaced_eq_map,
      Stmt.allUnplaced_eq_map, Stmt.allUnplaced_eq_map, thenSame, elseSame]
  cases elseBody with
  | nil =>
    refine admits_accept_other (fun _ may => may) ?_
    rw [if_neg (by decide), pure_bind]
    exact admits_pure (made [] rfl)
  | cons first rest =>
    refine admits_accept ?_
    rw [if_pos rfl, ← List.append_nil (braced _)]
    exact Admits.bind ownElse (fun elseValues elseSame => admits_pure (made elseValues elseSame))
      fun _ _ => trivial

/-- A loop after its first word. -/
theorem admits_loop {test : Expr} {stmts : List Stmt} (own : AdmitsExpr inner test Ends)
    (ownBody : AdmitsBlock body stmts) :
    AdmitsBuild (loop inner body) (parenthesized test.lexemes ++ braced (Stmt.bodyLexemes stmts))
      (.loop test stmts span) := by
  refine (admits_condition own).bind (fun value same => ?_) fun _ _ => trivial
  rw [← List.append_nil (braced _)]
  refine Admits.bind ownBody (fun values valuesSame => admits_pure fun place => ?_) fun _ _ => trivial
  rw [Stmt.unplaced, Stmt.unplaced, same, Stmt.allUnplaced_eq_map, Stmt.allUnplaced_eq_map, valuesSame]

/-- A call statement after its first word. -/
theorem admits_callStatement {receiver : Option Name} {callee : Name} {args : List Expr}
    (own : ∀ arg ∈ args, AdmitsExpr inner arg Ends) :
    AdmitsBuild (callStatement inner)
      (callLexemes receiver callee (args.map Expr.lexemes) ++ [.symbol .semicolon])
      (.call receiver callee args span) := by
  rw [callLexemes_eq]
  refine admits_identifier fun name named => ?_
  refine (admits_callAfter own named).bind
    (fun call same => admits_expect (admits_pure fun place => ?_)) fun _ _ => trivial
  obtain ⟨receiverSame, calleeSame, argsSame⟩ := same
  rw [Stmt.unplaced, Stmt.unplaced, Expr.allUnplaced_eq_map, Expr.allUnplaced_eq_map, receiverSame,
    calleeSame, argsSame]

/-- A return statement without a result after its first word. -/
theorem admits_leave : AdmitsBuild (returnStatement inner) [.symbol .semicolon] (.leave none span) := by
  refine admits_peek ?_
  rw [if_pos rfl, pure_bind]
  exact admits_expect (admits_pure fun place => rfl)

/-- A return statement with a result after its first word. -/
theorem admits_leaveWith {result : Expr} (own : AdmitsExpr inner result Ends) :
    AdmitsBuild (returnStatement inner) (result.lexemes ++ [.symbol .semicolon])
      (.leave (some result) span) := by
  obtain ⟨start, starts, proper⟩ := result.head?_lexemes
  have head : (result.lexemes ++ [Lexeme.symbol .semicolon]).head? = some start := by
    rw [List.head?_append, starts]
    rfl
  have closes : Ends (.symbol .semicolon) := by decide
  refine admits_peek_head head ?_
  rw [if_neg (by rintro rfl; exact proper closes)]
  refine own.bind (fun value same => ?_) fun _ _ => closes
  rw [pure_bind]
  refine admits_expect (admits_pure fun place => ?_)
  rw [Stmt.unplaced, Stmt.unplaced, Option.map_some, Option.map_some, same]

/-- A statement begins with a reserved word, which does not go on with a branch. -/
theorem Stmt.lexemes_eq_cons (stmt : Stmt) :
    ∃ word rest, stmt.lexemes = .keyword word :: rest ∧ word ≠ .else := by
  cases stmt with
  | leave result span => cases result <;> exact ⟨_, _, rfl, by decide⟩
  | _ => exact ⟨_, _, rfl, by decide⟩

/-- Statements up to a brace. -/
theorem admits_statementsWith {item : Reader Stmt} {stmts : List Stmt}
    (own : ∀ stmt ∈ stmts, AdmitsStmt item stmt) : AdmitsBody (statementsWith item) stmts := by
  rw [AdmitsBody, Stmt.bodyLexemes_eq_flatMap]
  refine (admits_repeat own fun stmt _ => ?_).weaken ?_ fun values all => map_eq_of_forall₂ all
  · obtain ⟨word, rest, written, other⟩ := stmt.lexemes_eq_cons
    exact ⟨_, rest, written, by simp, by simpa using other⟩
  · rintro _ rfl
    exact ⟨by simp, by decide⟩

/-- A block, given what reads its statements. -/
theorem admits_block {stmts : List Stmt} {levels : Nat}
    (own : AdmitsBody (statements levels) stmts) : AdmitsBlock (block (levels + 1)) stmts := by
  rw [AdmitsBlock, block]
  exact admits_expect (Admits.bind own (fun values same => admits_expect (admits_pure same))
    fun _ _ => rfl)

mutual

/-- A statement whose operators group as they bind and that is not too deep is read back. -/
theorem admits_statement (stmt : Stmt) (grouped : stmt.Grouped) {levels : Nat}
    (enough : stmt.levels ≤ levels) :
    AdmitsStmt (statement (expression levels) (block levels)) stmt := by
  cases stmt with
  | assign target value span =>
    exact admits_spanned (admits_peek (admits_advance
      (admits_assign (admits_expression grouped enough))))
  | assignElement array index value span =>
    obtain ⟨enoughIndex, enoughValue⟩ := Nat.max_le.mp enough
    exact admits_spanned (admits_peek (admits_advance (admits_assignElement
      (admits_expression grouped.1 enoughIndex) (admits_expression grouped.2 enoughValue))))
  | branch test thenBody elseBody span =>
    obtain ⟨enoughTest, enoughBoth⟩ := Nat.max_le.mp enough
    obtain ⟨enoughThen, enoughElse⟩ := Nat.max_le.mp enoughBoth
    exact admits_spanned (admits_peek (admits_advance (admits_branch
      (admits_expression grouped.1 enoughTest) (admits_nested thenBody grouped.2.1 enoughThen)
      (admits_nested elseBody grouped.2.2 enoughElse))))
  | loop test body span =>
    obtain ⟨enoughTest, enoughBody⟩ := Nat.max_le.mp enough
    exact admits_spanned (admits_peek (admits_advance (admits_loop
      (admits_expression grouped.1 enoughTest) (admits_nested body grouped.2 enoughBody))))
  | call receiver callee args span =>
    have own (arg : Expr) (member : arg ∈ args) : AdmitsExpr (expression levels) arg Ends :=
      admits_expression (Expr.allGrouped_iff.mp grouped arg member)
        (Nat.lt_of_lt_of_le (Expr.levels_lt_of_mem member) enough)
    exact admits_spanned (admits_peek (admits_advance (admits_callStatement own)))
  | leave result span =>
    cases result with
    | none => exact admits_spanned (admits_peek (admits_advance admits_leave))
    | some result =>
      exact admits_spanned (admits_peek (admits_advance
        (admits_leaveWith (admits_expression (grouped result rfl) enough))))

/-- A block of statements whose operators group as they bind and that are not too deep is read
back. -/
theorem admits_nested (stmts : List Stmt) (grouped : Stmt.AllGrouped stmts) {levels : Nat}
    (enough : Stmt.allLevels stmts < levels) : AdmitsBlock (block levels) stmts := by
  obtain ⟨fewer, rfl⟩ := Nat.exists_eq_add_one.mpr (Nat.lt_of_le_of_lt (Nat.zero_le _) enough)
  exact admits_block (admits_statementsWith
    (admits_statements stmts grouped (Nat.le_of_lt_succ enough)))

/-- Statements whose operators group as they bind and that are not too deep are read back. -/
theorem admits_statements (stmts : List Stmt) (grouped : Stmt.AllGrouped stmts) {levels : Nat}
    (enough : Stmt.allLevels stmts ≤ levels) :
    ∀ stmt ∈ stmts, AdmitsStmt (statement (expression levels) (block levels)) stmt := by
  cases stmts with
  | nil => exact fun stmt member => by contradiction
  | cons first rest =>
    obtain ⟨enoughFirst, enoughRest⟩ := Nat.max_le.mp enough
    exact List.forall_mem_cons.mpr ⟨admits_statement first grouped.1 enoughFirst,
      admits_statements rest grouped.2 enoughRest⟩

end

end Statements

/-! ## Classes -/

section Classes

/-- The lexeme of a type that is one. -/
theorem admits_typeName {type : JackType} (proper : type ≠ .void) :
    Admits typeName [type.lexeme] anything (· = type) := by
  cases type with
  | void => contradiction
  | _ =>
    refine admits_peek ?_
    dsimp only [JackType.lexeme]
    rw [pure_bind]
    exact admits_advance (admits_pure rfl)

/-- The lexeme of a name. -/
theorem admits_name (text : String) :
    Admits identifier [.identifier text] anything (fun name => name.node = text) := by
  rw [← bind_pure identifier]
  exact admits_identifier fun name same => admits_pure same

/-- The rest of a declaration of one name. -/
theorem admits_declaredNames (name : Name) :
    Admits declaredNames [.identifier name.node, .symbol .semicolon] anything
      (fun names => names.map unplacedName = [name].map unplacedName) := by
  have own : ∀ item ∈ [name], Admits identifier [.identifier item.node] anything
      (fun value => unplacedName value = unplacedName item) :=
    List.forall_mem_singleton.mpr
      ((admits_name name.node).weaken (fun _ may => may) fun _ same => unplacedName_congr same)
  have list : Admits (commaSeparated identifier) [.identifier name.node]
      (fun found => anything found ∧ found ≠ .symbol .comma)
      (List.Forall₂ (fun item value => unplacedName value = unplacedName item) [name]) :=
    admits_commaSeparated (List.cons_ne_nil _ _) own trivial
  exact list.bind (fun names all => admits_expect (admits_pure (map_eq_of_forall₂ all)))
    fun _ _ => ⟨trivial, by simp⟩

/-- A declaration of one class variable. -/
theorem admits_classVariables {item : ClassVariable} (proper : item.type ≠ .void) :
    Admits classVariables (declarationLexemes item.storage.keyword item.type item.name) anything
      (fun vars => vars.map ClassVariable.unplaced = [item.unplaced]) := by
  have known : ClassStorage.ofLexeme? (.keyword item.storage.keyword) = some item.storage := by
    cases item.storage <;> rfl
  refine admits_peek ?_
  rw [known]
  refine admits_advance (Admits.bind (admits_typeName proper) (fun type same => ?_)
    fun _ _ => trivial)
  subst same
  rw [← List.append_nil [_, _]]
  refine (admits_declaredNames item.name).bind (fun names same => admits_pure ?_) fun _ _ => trivial
  have made := congrArg (List.map fun name => (⟨item.storage, item.type, name⟩ : ClassVariable)) same
  rw [List.map_map] at made ⊢
  exact made

/-- A declaration of one local variable. -/
theorem admits_localVariables {item : Variable} (proper : item.type ≠ .void) :
    Admits localVariables (declarationLexemes .var item.type item.name) anything
      (fun locals => locals.map Variable.unplaced = [item.unplaced]) := by
  refine admits_expect (Admits.bind (admits_typeName proper) (fun type same => ?_)
    fun _ _ => trivial)
  subst same
  rw [← List.append_nil [_, _]]
  refine (admits_declaredNames item.name).bind (fun names same => admits_pure ?_) fun _ _ => trivial
  have made := congrArg (List.map fun name => (⟨item.type, name⟩ : Variable)) same
  rw [List.map_map] at made ⊢
  exact made

/-- Declarations of one variable each. -/
theorem flatten_eq_of_forall₂ {α : Type} {change : α → α} {items : List α} {lists : List (List α)}
    (all : List.Forall₂ (fun item values => values.map change = [change item]) items lists) :
    lists.flatten.map change = items.map change := by
  induction all with
  | nil => rfl
  | cons head _ ih => rw [List.flatten_cons, List.map_append, head, ih, List.map_cons]; rfl

/-- A parameter. -/
theorem admits_parameter {item : Variable} (proper : item.type ≠ .void) :
    Admits parameter item.lexemes anything (fun value => value.unplaced = item.unplaced) := by
  refine Admits.bind (admits_typeName proper) (fun type same => ?_) fun _ _ => trivial
  subst same
  refine admits_identifier fun name named => admits_pure ?_
  rw [Variable.unplaced, Variable.unplaced, unplacedName_congr named]

/-- Parameters in parentheses. -/
theorem admits_parameters {params : List Variable} (proper : ∀ item ∈ params, item.type ≠ .void) :
    Admits parameters (parenthesized (listed (params.map Variable.lexemes))) anything
      (fun values => values.map Variable.unplaced = params.map Variable.unplaced) := by
  have starts (item : Variable) :
      ∃ first, item.lexemes.head? = some first ∧ first ≠ .symbol .parenClose :=
    ⟨item.type.lexeme, rfl, by cases item.type <;> simp [JackType.lexeme]⟩
  have own (item : Variable) (member : item ∈ params) := admits_parameter (proper item member)
  rw [parameters_eq]
  exact (admits_parenthesized own starts trivial trivial).weaken (fun _ may => may)
    fun _ => map_eq_of_forall₂

/-- The local variables and the statements of a subroutine. -/
theorem admits_locals {items : List Variable} (proper : ∀ item ∈ items, item.type ≠ .void) :
    Admits (Reader.repeat (· = .keyword .var) localVariables)
      (items.flatMap fun item => declarationLexemes .var item.type item.name)
      (· ≠ .keyword .var)
      (fun lists => lists.flatten.map Variable.unplaced = items.map Variable.unplaced) := by
  refine (admits_repeat (fun item member => admits_localVariables (proper item member)) ?_).weaken
    (fun found other => ⟨trivial, decide_eq_false other⟩) fun lists all => flatten_eq_of_forall₂ all
  exact fun item _ => ⟨_, _, rfl, rfl, trivial⟩

/-- The statements of a subroutine do not begin with a declaration. -/
theorem headD_bodyLexemes (stmts : List Stmt) {rest : List Lexeme} {found : Lexeme} :
    (Stmt.bodyLexemes stmts ++ .symbol .braceClose :: rest).headD found ≠ .keyword .var := by
  cases stmts with
  | nil => simp [Stmt.bodyLexemes]
  | cons stmt others =>
    rw [Stmt.bodyLexemes]
    cases stmt with
    | leave result span => cases result <;> simp [Stmt.lexemes]
    | _ => simp [Stmt.lexemes]

/-- The lexemes behind the kind and the result of a subroutine. -/
theorem admits_subroutineAfter {own : Subroutine}
    (typed : ∀ item ∈ own.params ++ own.locals, item.type ≠ .void)
    (grouped : Stmt.AllGrouped own.body) (shallow : Stmt.allLevels own.body ≤ nestingLimit) :
    Admits (subroutineAfter own.kind own.result)
      (.identifier own.name.node :: (parenthesized (listed (own.params.map Variable.lexemes)) ++
        braced (own.locals.flatMap (fun item => declarationLexemes .var item.type item.name) ++
          Stmt.bodyLexemes own.body)))
      anything (fun value => value.unplaced = own.unplaced) := by
  have params := admits_parameters fun item member => typed item (List.mem_append_left _ member)
  have locals := admits_locals fun item member => typed item (List.mem_append_right _ member)
  have body : AdmitsBody (statements nestingLimit) own.body :=
    admits_statementsWith (admits_statements own.body grouped shallow)
  refine admits_identifier fun name named => ?_
  refine params.bind (fun params paramsSame => admits_expect ?_) fun _ _ => trivial
  rw [List.append_assoc]
  refine locals.bind (fun locals localsSame => ?_) fun _ _ => headD_bodyLexemes own.body
  refine Admits.bind body (fun body bodySame => admits_expect (admits_pure ?_)) fun _ _ => rfl
  rw [Subroutine.unplaced, Subroutine.unplaced, unplacedName_congr named, paramsSame, localsSame,
    Stmt.allUnplaced_eq_map, Stmt.allUnplaced_eq_map, bodySame]

/-- A subroutine that is spelled as one. -/
theorem admits_subroutine {own : Subroutine}
    (typed : ∀ item ∈ own.params ++ own.locals, item.type ≠ .void)
    (grouped : Stmt.AllGrouped own.body) (shallow : Stmt.allLevels own.body ≤ nestingLimit) :
    Admits subroutine own.lexemes anything (fun value => value.unplaced = own.unplaced) := by
  have after := admits_subroutineAfter typed grouped shallow
  have known : SubroutineKind.ofLexeme? (.keyword own.kind.keyword) = some own.kind := by
    cases own.kind <;> rfl
  rw [subroutine_eq]
  refine admits_peek (admits_advance ?_)
  rw [known, Option.getD_some]
  by_cases result : own.result = .void
  · rw [result] at after ⊢
    refine admits_accept ?_
    rw [if_pos rfl]
    exact after
  · refine admits_accept_other (fun _ _ => by cases same : own.result <;> simp_all [JackType.lexeme]) ?_
    rw [if_neg (by decide)]
    refine Admits.bind (admits_typeName result) (fun type same => ?_) fun _ _ => trivial
    subst same
    exact after

/-- A class that is spelled as one. -/
theorem admits_classDeclaration {cls : Class} (spellable : cls.Spellable) :
    Admits classDeclaration cls.lexemes anything (fun value => value.unplaced = cls.unplaced) := by
  have vars : Admits
      (Reader.repeat (fun next => (ClassStorage.ofLexeme? next).isSome) classVariables)
      (cls.vars.flatMap fun item => declarationLexemes item.storage.keyword item.type item.name)
      (fun found => (ClassStorage.ofLexeme? found).isSome = false)
      (fun lists => lists.flatten.map ClassVariable.unplaced =
        cls.vars.map ClassVariable.unplaced) := by
    refine (admits_repeat (fun item member =>
      admits_classVariables (spellable.classVars item member)) ?_).weaken
      (fun found other => ⟨trivial, other⟩) fun lists all => flatten_eq_of_forall₂ all
    exact fun item _ => ⟨_, _, rfl, by cases item.storage <;> rfl, trivial⟩
  have subroutines : Admits
      (Reader.repeat (fun next => (SubroutineKind.ofLexeme? next).isSome) subroutine)
      (cls.subroutines.flatMap Subroutine.lexemes)
      (fun found => (SubroutineKind.ofLexeme? found).isSome = false)
      (fun values => values.map Subroutine.unplaced = cls.subroutines.map Subroutine.unplaced) := by
    refine (admits_repeat (fun own member => admits_subroutine (spellable.ownVars own member)
      (spellable.grouped own member) (spellable.shallow own member)) ?_).weaken
      (fun found other => ⟨trivial, other⟩) fun values all => map_eq_of_forall₂ all
    exact fun own _ => ⟨_, _, rfl, by cases own.kind <;> rfl, trivial⟩
  have begins {found : Lexeme} : (ClassStorage.ofLexeme?
      ((cls.subroutines.flatMap Subroutine.lexemes ++ [Lexeme.symbol .braceClose]).headD found)).isSome =
        false := by
    cases cls.subroutines with
    | nil => rfl
    | cons own rest =>
      change (ClassStorage.ofLexeme? (.keyword own.kind.keyword)).isSome = false
      cases own.kind <;> rfl
  refine admits_expect (admits_identifier fun name named => admits_expect ?_)
  rw [List.append_assoc]
  refine vars.bind (fun vars varsSame => ?_) fun _ _ => begins
  refine subroutines.bind (fun subroutines same => admits_expect (admits_pure ?_)) fun _ _ => rfl
  rw [Class.unplaced, Class.unplaced, unplacedName_congr named, varsSame, same]

end Classes

/-- A text with the lexemes of a class that is spelled as one is read as that class, apart from
places. -/
theorem exists_read_of_scan {cls : Class} (spellable : cls.Spellable) {source : String}
    {tokens : List (Spanned Lexeme)} (scanned : scan source = .ok tokens)
    (nodes : tokens.map Spanned.node = cls.lexemes ++ [.eof]) :
    ∃ read, readClass source = .ok read ∧ read.unplaced = cls.unplaced := by
  have admitted := admits_classDeclaration spellable ⟨tokens, .nowhere⟩ [.eof] nodes trivial
  obtain ⟨read, after, run, left, same⟩ := admitted
  have last : after.next.node = .eof := by
    rw [after.node_next, left]
    rfl
  have whole : wholeClass.run ⟨tokens, .nowhere⟩ = .ok (read, after) :=
    run_wholeClass.mpr ⟨run, last⟩
  exact ⟨read, bind_eq_ok.mpr ⟨tokens, scanned, bind_eq_ok.mpr ⟨(read, after), whole, rfl⟩⟩, same⟩

/-- The canonical text of a class is read as that class, apart from places. -/
theorem readClass_text {cls : Class} (spellable : cls.Spellable) :
    ∃ read, readClass cls.text = .ok read ∧ read.unplaced = cls.unplaced := by
  obtain ⟨tokens, scanned, nodes⟩ := scan_spacedText spellable.words
  exact exists_read_of_scan spellable scanned nodes

/-- A class with a string literal, a loop, a branch and a chain of operators. -/
def chainClass : Class :=
  let name (text : String) : Name := ⟨text, .nowhere⟩
  let var (text : String) : Expr := .variable text .nowhere
  let product := Expr.binary .mul (.unary .neg (var "x") .nowhere)
    (.group (.binary .sub (var "y") (.integer 2 .nowhere) .nowhere) .nowhere) .nowhere
  let sum := Expr.binary .sub (.binary .add (.integer 32767 .nowhere) product .nowhere)
    (.element (name "a") (var "x") .nowhere) .nowhere
  { name := name "Chain"
    vars := [⟨.field, .int, name "x"⟩]
    subroutines := [{
      kind := .method
      result := .int
      name := name "sum"
      params := [⟨.boolean, name "y"⟩]
      locals := [⟨.object "Array", name "a"⟩]
      body := [
        .loop (var "y") [.call (some (name "Output")) (name "print") [.string "-" .nowhere] .nowhere]
          .nowhere,
        .branch (var "y") [] [.leave (some (.null .nowhere)) .nowhere] .nowhere,
        .leave (some sum) .nowhere] }] }

/-- The class is read back from its text. -/
theorem chainClass_reread :
    chainClass.Spellable ∧
      ∃ read, readClass chainClass.text = .ok read ∧ read.unplaced = chainClass.unplaced := by
  have spellable : chainClass.Spellable := by
    refine ⟨by decide, by decide, by decide, ?_, by decide⟩
    intro subroutine member
    obtain rfl := List.mem_singleton.mp member
    simp [Stmt.AllGrouped, Stmt.Grouped, Expr.Grouped, Expr.AllGrouped, Expr.top?,
      BinaryOp.leftPower]
  exact ⟨spellable, readClass_text spellable⟩

end JackToolchain.Jack
