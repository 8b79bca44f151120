import JackToolchain.Proofs.Jack.Scan
import JackToolchain.Proofs.Jack.Taking
import JackToolchain.Proofs.Jack.Writing

/-!
# What the grammar accepts

A class is read from the lexemes that write it and from no others, apart from declarations of
several names and empty else blocks. Its operators group as they bind: the loop over a chain of
operators holds a left operand that binds at least as tightly as the operator that comes next.
-/
namespace JackToolchain.Jack

open Reader

/-! ## Expressions -/

section Expressions

variable {inner inside : Reader Expr}

/-- The lexemes of an expression, whose operators group as they bind. -/
def MeansExpr (taken : List Lexeme) (expr : Expr) : Prop := taken = expr.lexemes ∧ expr.Grouped

/-- The lexemes of an expression that is no bare binary operation. -/
def MeansTerm (taken : List Lexeme) (expr : Expr) : Prop :=
  MeansExpr taken expr ∧ expr.top? = none

/-- Items in parentheses with commas between them; there may be none. -/
theorem takes_parenthesized {α : Type} {meant : List Lexeme → α → Prop} {item : Reader α}
    (own : Takes meant item) :
    Takes (fun taken values => ∃ parts, List.Forall₂ meant parts values ∧
      taken = parenthesized (listed parts)) (parenthesizedItems item) := by
  have close (front : List Lexeme) (values : List α)
      (separated : ∃ parts, List.Forall₂ meant parts values ∧ front = listed parts) :
      Takes (fun back values => ∃ parts, List.Forall₂ meant parts values ∧
          .symbol .parenOpen :: (front ++ back) = parenthesized (listed parts))
        (expect (.symbol .parenClose) >>= fun _ => pure values) := by
    refine (takes_expect (by simp)).bind fun _ _ mark => takes_pure ?_
    obtain ⟨parts, each, rfl⟩ := separated
    subst mark
    exact ⟨parts, each, rfl⟩
  refine (takes_expect (by simp)).bind fun _ _ mark => takes_peek fun found => ?_
  subst mark
  dsimp only
  split
  · have none : Takes (fun taken values => ∃ parts, List.Forall₂ meant parts values ∧
        taken = listed parts) (pure []) :=
      takes_pure ⟨[], .nil, rfl⟩
    exact (none.bind close).from
  · have some : Takes (fun taken values => ∃ parts, List.Forall₂ meant parts values ∧
        taken = listed parts) (commaSeparated item) :=
      (takes_commaSeparated own).weaken fun _ _ separated => separated.2
    exact (some.bind close).from

/-- Parts that mean expressions one by one are their lexemes. -/
theorem means_arguments {parts : List (List Lexeme)} {args : List Expr}
    (each : List.Forall₂ MeansExpr parts args) :
    parts = args.map Expr.lexemes ∧ ∀ arg ∈ args, arg.Grouped := by
  induction each with
  | nil => exact ⟨rfl, fun arg member => by contradiction⟩
  | cons head _ ih =>
    rw [List.map_cons, ← head.1, ← ih.1]
    exact ⟨rfl, List.forall_mem_cons.mpr ⟨head.2, ih.2⟩⟩

/-- The arguments of a call. -/
theorem takes_arguments (own : Takes MeansExpr inner) :
    Takes (fun taken args => taken = parenthesized (listed (args.map Expr.lexemes)) ∧
      Expr.AllGrouped args) (arguments inner) := by
  rw [arguments_eq]
  refine (takes_parenthesized own).weaken ?_
  rintro _ args ⟨parts, each, rfl⟩
  obtain ⟨rfl, grouped⟩ := means_arguments each
  exact ⟨rfl, Expr.allGrouped_iff.mpr grouped⟩

/-- A call after its first name. -/
theorem takes_callAfter (own : Takes MeansExpr inner) (first : Name) :
    Takes (fun taken call =>
        .identifier first.node :: taken =
          callLexemes call.1 call.2.1 (call.2.2.map Expr.lexemes) ∧ Expr.AllGrouped call.2.2)
      (callAfter inner first) := by
  refine (takes_accept (by simp)).bind fun _ there mark => ?_
  subst mark
  cases there with
  | true =>
    refine takes_identifier.bind fun _ callee named => (takes_arguments own).bind ?_
    rintro _ args ⟨rfl, grouped⟩
    subst named
    exact takes_pure ⟨by simp [callLexemes, parenthesized], grouped⟩
  | false =>
    refine (takes_arguments own).bind ?_
    rintro _ args ⟨rfl, grouped⟩
    exact takes_pure ⟨by simp [callLexemes, parenthesized], grouped⟩

/-- What follows a name in an expression. -/
theorem takes_nameTerm (own : Takes MeansExpr inner) (name : Name) :
    Takes (fun taken build => ∀ span, MeansTerm (.identifier name.node :: taken) (build span))
      (nameTerm inner name) := by
  have call : Takes
      (fun taken build => ∀ span, MeansTerm (.identifier name.node :: taken) (build span))
      (callAfter inner name >>= fun call => pure (Expr.call call.1 call.2.1 call.2.2)) := by
    refine (takes_callAfter own name).bind fun taken call means => takes_pure fun span => ?_
    refine ⟨⟨?_, means.2⟩, rfl⟩
    rw [Expr.lexemes, Expr.allLexemes_eq_map, ← means.1, List.append_nil]
  refine takes_peek fun found => ?_
  split
  · refine takesFrom_advance (by simp) (own.bind ?_)
    rintro _ index ⟨rfl, grouped⟩
    refine (takes_expect (by simp)).bind fun _ _ mark => takes_pure fun span => ?_
    subst mark
    exact ⟨⟨by simp [Expr.lexemes], grouped⟩, rfl⟩
  · exact call.from
  · exact call.from
  · exact Takes.from (takes_pure fun span => ⟨⟨rfl, trivial⟩, rfl⟩)

/-- A lexeme that is a whole expression. -/
theorem takesFrom_leaf {found : Lexeme} (some : found ≠ .eof) {build : Span → Expr}
    (means : ∀ span, MeansTerm [found] (build span)) :
    TakesFrom found (fun taken build => ∀ span, MeansTerm taken (build span)) (leaf build) :=
  takesFrom_advance some (takes_pure means)

/-- A sign and its operand. -/
theorem takesFrom_sign (op : UnaryOp) (own : Takes MeansTerm inside) :
    TakesFrom (.symbol op.symbol)
      (fun taken build => ∀ span, MeansTerm taken (build span))
      (Reader.advance >>= fun _ => inside >>= fun operand => pure (Expr.unary op operand)) := by
  refine takesFrom_advance (by simp) (own.bind ?_)
  rintro _ operand ⟨⟨rfl, grouped⟩, bare⟩
  exact takes_pure fun span => ⟨⟨by simp [Expr.lexemes], bare, grouped⟩, rfl⟩

/-- An expression without operators at its top. -/
theorem takes_term (own : Takes MeansExpr inner) (ownOperand : Takes MeansTerm inside) :
    Takes MeansTerm (term inner inside) := by
  refine takes_spanned (takes_peek fun found => ?_)
  split
  · exact takesFrom_leaf (by simp) fun span => ⟨⟨rfl, trivial⟩, rfl⟩
  · exact takesFrom_leaf (by simp) fun span => ⟨⟨rfl, trivial⟩, rfl⟩
  · exact takesFrom_leaf (by simp) fun span => ⟨⟨rfl, trivial⟩, rfl⟩
  · exact takesFrom_leaf (by simp) fun span => ⟨⟨rfl, trivial⟩, rfl⟩
  · exact takesFrom_leaf (by simp) fun span => ⟨⟨rfl, trivial⟩, rfl⟩
  · exact takesFrom_leaf (by simp) fun span => ⟨⟨rfl, trivial⟩, rfl⟩
  · refine takesFrom_advance (by simp) (own.bind ?_)
    rintro _ value ⟨rfl, grouped⟩
    refine (takes_expect (by simp)).bind fun _ _ mark => takes_pure fun span => ?_
    subst mark
    exact ⟨⟨by simp [Expr.lexemes], grouped⟩, rfl⟩
  · exact takesFrom_sign .neg ownOperand
  · exact takesFrom_sign .not ownOperand
  · refine (takes_identifier.bind fun _ name named => ?_).from
    subst named
    exact takes_nameTerm own name
  · exact takes_refuse.from

/-- Only its mark writes an operator. -/
theorem BinaryOp.ofLexeme?_eq_some {found : Lexeme} {op : BinaryOp} :
    BinaryOp.ofLexeme? found = some op ↔ found = .symbol op.symbol := by
  cases found with
  | symbol mark => cases mark <;> cases op <;> decide
  | _ => exact iff_of_false (fun none => by contradiction) (by simp)

/-- No operator that binds at least as tightly as `floor` comes next. -/
def Stops (floor : Nat) (found : Lexeme) : Prop :=
  ∀ op, BinaryOp.ofLexeme? found = some op → op.leftPower < floor

/-- Taking an operator that binds tightly enough depends on the next lexeme. -/
theorem run_acceptOperator (floor : Nat) (cursor : Cursor) :
    (acceptOperator floor).run cursor =
      .ok (match BinaryOp.ofLexeme? cursor.next.node with
        | some op => if floor ≤ op.leftPower then (some op, cursor.advance) else (none, cursor)
        | none => (none, cursor)) := by
  change (match BinaryOp.ofLexeme? cursor.next.node with
    | some op =>
      if floor ≤ op.leftPower then Reader.advance >>= fun _ => pure (some op) else pure none
    | none => pure none : Reader (Option BinaryOp)).run cursor = _
  cases BinaryOp.ofLexeme? cursor.next.node with
  | none => rfl
  | some op =>
    dsimp only
    split <;> rfl

/-- No operator is taken exactly if none comes next that binds tightly enough. -/
theorem acceptOperator_none {floor : Nat} {cursor after : Cursor} :
    (acceptOperator floor).run cursor = .ok (none, after) ↔
      after = cursor ∧ Stops floor cursor.next.node := by
  rw [run_acceptOperator, Stops]
  cases BinaryOp.ofLexeme? cursor.next.node with
  | none => simp [eq_comm]
  | some op =>
    by_cases tight : floor ≤ op.leftPower
    · simp [tight]
    · simp [tight, eq_comm]
      omega

/-- An operator is taken exactly if it comes next and binds tightly enough. -/
theorem acceptOperator_some {floor : Nat} {cursor after : Cursor} {op : BinaryOp} :
    (acceptOperator floor).run cursor = .ok (some op, after) ↔
      after = cursor.advance ∧ cursor.next.node = .symbol op.symbol ∧ floor ≤ op.leftPower := by
  rw [run_acceptOperator, ← BinaryOp.ofLexeme?_eq_some]
  cases BinaryOp.ofLexeme? cursor.next.node with
  | none => simp
  | some other => by_cases tight : floor ≤ other.leftPower <;> simp [tight] <;> grind

/-- The expression so far in a chain of operators that bind at least as tightly as `floor`: its own
operator does, and it binds at least as tightly as one that comes next. -/
structure Chained (floor : Nat) (expr : Expr) (found : Lexeme) : Prop where
  /-- Its operators group as they bind. -/
  grouped : expr.Grouped
  /-- Its own operator, if it is a bare binary operation. -/
  tight : ∀ op ∈ expr.top?, floor ≤ op.leftPower
  /-- An operator that comes next. -/
  follows : ∀ op ∈ expr.top?, ∀ other, BinaryOp.ofLexeme? found = some other →
    other.leftPower ≤ op.leftPower

/-- An expression that is no bare binary operation starts a chain. -/
theorem Chained.start {floor : Nat} {expr : Expr} {found : Lexeme} (grouped : expr.Grouped)
    (bare : expr.top? = none) : Chained floor expr found := by
  refine ⟨grouped, fun op own => ?_, fun op own => ?_⟩ <;>
  · rw [bare] at own
    contradiction

/-- An operation goes on with a chain: the operator came next, and its right operand is a chain of
tighter ones that has stopped. -/
theorem Chained.operation {floor : Nat} {op : BinaryOp} {left right : Expr} {found : Lexeme}
    {span : Span} (first : Chained floor left (.symbol op.symbol)) (tight : floor ≤ op.leftPower)
    (second : Chained op.rightPower right found) (stops : Stops op.rightPower found) :
    Chained floor (.binary op left right span) found := by
  refine ⟨⟨fun inner own => ?_, second.tight, first.grouped, second.grouped⟩, ?_, ?_⟩
  · exact first.follows inner own op (BinaryOp.ofLexeme?_eq_some.mpr rfl)
  · rintro _ ⟨rfl⟩
    exact tight
  · rintro _ ⟨rfl⟩ other next
    exact Nat.le_of_lt_succ (stops other next)

/-- What the rest of a chain of operators is: it goes on with the lexemes of the expression so far,
and it stops in front of an operator that binds less tightly. -/
def TakesChain (floor : Nat) (left : Expr) (reader : Reader Expr) : Prop :=
  ∀ cursor value after, reader.run cursor = .ok (value, after) →
    Chained floor left cursor.next.node →
    Chained floor value after.next.node ∧ Stops floor after.next.node ∧
      ∃ taken, cursor.lexemes = taken ++ after.lexemes ∧ .eof ∉ taken ∧
        left.lexemes ++ taken = value.lexemes

/-- A chain from its first operand on. -/
theorem TakesChain.start {floor : Nat} {first : Reader Expr} {rest : Expr → Reader Expr}
    (own : Takes MeansTerm first) (others : ∀ left, TakesChain floor left (rest left)) :
    ∀ cursor value after, (first >>= rest).run cursor = .ok (value, after) →
      Chained floor value after.next.node ∧ Stops floor after.next.node ∧
        ∃ taken, cursor.lexemes = taken ++ after.lexemes ∧ .eof ∉ taken ∧ taken = value.lexemes := by
  intro cursor value after run
  obtain ⟨⟨left, middle⟩, made, goesOn⟩ := bind_eq_ok.mp run
  obtain ⟨front, begins, frontOpen, ⟨rfl, grouped⟩, bare⟩ := own cursor left middle made
  obtain ⟨chained, stops, back, follows, backOpen, same⟩ :=
    others left middle value after goesOn (.start grouped bare)
  refine ⟨chained, stops, left.lexemes ++ back, ?_, ?_, same⟩
  · rw [begins, follows, List.append_assoc]
  · rw [List.mem_append]
    exact fun inside => inside.elim frontOpen backOpen

/-- The rest of a chain of operators is nothing if the chain stops; otherwise it goes on with an
operator that binds tightly enough, the chain of its right operand and the rest behind that. -/
theorem operators_ok {levels floor : Nat} {left value : Expr} {cursor after : Cursor}
    (run : (operators levels floor left).run cursor = .ok (value, after)) :
    (value = left ∧ after = cursor ∧ Stops floor cursor.next.node) ∨
      ∃ fewer op right middle, levels = fewer + 1 ∧
        cursor.next.node = .symbol op.symbol ∧ floor ≤ op.leftPower ∧
        (term (expression fewer) (operand fewer) >>= operators fewer op.rightPower).run
          cursor.advance = .ok (right, middle) ∧
        (operators fewer floor (.binary op left right (left.span.merge right.span))).run middle =
          .ok (value, after) := by
  cases levels with
  | zero =>
    rw [operators] at run
    obtain ⟨⟨taken, middle⟩, accepted, rest⟩ := bind_eq_ok.mp run
    cases taken with
    | none =>
      obtain ⟨rfl, stops⟩ := acceptOperator_none.mp accepted
      obtain ⟨rfl, rfl⟩ := Prod.mk.inj (Except.ok.inj rest)
      exact .inl ⟨rfl, rfl, stops⟩
    | some op => cases rest
  | succ fewer =>
    rw [operators] at run
    obtain ⟨⟨taken, middle⟩, accepted, rest⟩ := bind_eq_ok.mp run
    cases taken with
    | none =>
      obtain ⟨rfl, stops⟩ := acceptOperator_none.mp accepted
      obtain ⟨rfl, rfl⟩ := Prod.mk.inj (Except.ok.inj rest)
      exact .inl ⟨rfl, rfl, stops⟩
    | some op =>
      obtain ⟨rfl, mark, tight⟩ := acceptOperator_some.mp accepted
      dsimp only at rest
      rw [← bind_assoc] at rest
      obtain ⟨⟨right, middle⟩, made, goesOn⟩ := bind_eq_ok.mp rest
      exact .inr ⟨fewer, op, right, middle, rfl, mark, tight, made, goesOn⟩

/-- The rest of a chain of operators, given what is read with one level less. -/
theorem takesChain_operators {levels floor : Nat} {left : Expr}
    (deeper : ∀ fewer, levels = fewer + 1 →
      Takes MeansTerm (term (expression fewer) (operand fewer)) ∧
        ∀ floor left, TakesChain floor left (operators fewer floor left)) :
    TakesChain floor left (operators levels floor left) := by
  intro cursor value after run chained
  obtain ⟨rfl, rfl, stops⟩ | ⟨fewer, op, right, middle, less, mark, tight, made, goesOn⟩ :=
    operators_ok run
  · exact ⟨chained, stops, [], rfl, List.not_mem_nil, List.append_nil _⟩
  · obtain ⟨first, chain⟩ := deeper fewer less
    obtain ⟨second, stops, back, begins, open_, rfl⟩ :=
      TakesChain.start first (chain op.rightPower) _ right middle made
    rw [mark] at chained
    obtain ⟨whole, stopped, last, follows, lastOpen, same⟩ :=
      chain floor _ middle value after goesOn (chained.operation tight second stops)
    refine ⟨whole, stopped, .symbol op.symbol :: (right.lexemes ++ last), ?_, ?_, ?_⟩
    · rw [cursor.lexemes_eq_cons mark (by simp), begins, follows]
      simp
    · simp [open_, lastOpen]
    · rw [← same, Expr.lexemes]
      simp

/-- The readers of expressions take the lexemes of what they read, at every level. -/
theorem takes_levels (levels : Nat) :
    Takes MeansExpr (expression levels) ∧ Takes MeansTerm (operand levels) ∧
      ∀ floor left, TakesChain floor left (operators levels floor left) := by
  induction levels with
  | zero =>
    refine ⟨?_, ?_, fun floor left => takesChain_operators fun fewer less => by contradiction⟩
    · rw [expression]
      exact takes_refuse
    · rw [operand]
      exact takes_refuse
  | succ levels ih =>
    obtain ⟨whole, sign, chain⟩ := ih
    have first : Takes MeansTerm (term (expression levels) (operand levels)) :=
      takes_term whole sign
    refine ⟨?_, ?_, fun floor left => takesChain_operators fun fewer less => ?_⟩
    · rw [expression]
      intro cursor value after run
      obtain ⟨chained, -, taken, begins, open_, same⟩ :=
        TakesChain.start first (chain 0) cursor value after run
      exact ⟨taken, begins, open_, same, chained.grouped⟩
    · rw [operand]
      exact first
    · obtain rfl := Nat.succ.inj less
      exact ⟨first, chain⟩

end Expressions

/-! ## Statements -/

section Statements

variable {inner : Reader Expr} {body : Reader (List Stmt)}

/-- Lexemes of a statement, whose operators group as they bind. -/
def MeansStmt (taken : List Lexeme) (stmt : Stmt) : Prop :=
  Respelled taken stmt.lexemes ∧ stmt.Grouped

/-- Lexemes of statements, whose operators group as they bind. -/
def MeansBody (taken : List Lexeme) (stmts : List Stmt) : Prop :=
  Respelled taken (Stmt.bodyLexemes stmts) ∧ Stmt.AllGrouped stmts

/-- Lexemes of statements in braces, whose operators group as they bind. -/
def MeansBlock (taken : List Lexeme) (stmts : List Stmt) : Prop :=
  Respelled taken (braced (Stmt.bodyLexemes stmts)) ∧ Stmt.AllGrouped stmts

/-- What a reader of statements is to make after the first word. -/
def TakesStmt (word : Keyword) (reader : Reader (Span → Stmt)) : Prop :=
  Takes (fun taken build => ∀ span, MeansStmt (.keyword word :: taken) (build span)) reader

/-- An expression in parentheses. -/
theorem takes_condition (own : Takes MeansExpr inner) :
    Takes (fun taken value => taken = parenthesized value.lexemes ∧ value.Grouped)
      (condition inner) := by
  refine (takes_expect (by simp)).bind fun _ _ opening => own.bind ?_
  rintro _ value ⟨rfl, grouped⟩
  refine (takes_expect (by simp)).bind fun _ _ closing => takes_pure ?_
  subst opening closing
  exact ⟨by simp [parenthesized], grouped⟩

/-- An assignment after its first word. -/
theorem takes_assignment (own : Takes MeansExpr inner) : TakesStmt .let (assignment inner) := by
  refine takes_identifier.bind fun _ target named => ?_
  subst named
  have close {meant : List Lexeme → (Span → Stmt) → Prop} {last : Expr → Reader (Span → Stmt)}
      (ends : ∀ value : Expr, value.Grouped → Takes (fun taken build =>
        meant (.symbol .equals :: (value.lexemes ++ .symbol .semicolon :: taken)) build)
          (last value)) :
      Takes meant (do
        expect (.symbol .equals)
        let value ← inner
        expect (.symbol .semicolon)
        last value) := by
    refine (takes_expect (by simp)).bind fun _ _ equals => own.bind ?_
    rintro _ value ⟨rfl, grouped⟩
    refine (takes_expect (by simp)).bind fun _ _ closing => ?_
    subst equals closing
    simpa using ends value grouped
  refine (takes_accept (by simp)).bind fun _ there mark => ?_
  subst mark
  cases there with
  | true =>
    refine own.bind ?_
    rintro _ index ⟨rfl, indexGrouped⟩
    refine (takes_expect (by simp)).bind fun _ _ closing => ?_
    subst closing
    rw [pure_bind]
    apply close
    intro value grouped
    refine takes_pure fun span => ⟨?_, indexGrouped, grouped⟩
    simpa [Stmt.lexemes] using Respelled.refl _
  | false =>
    dsimp only
    rw [pure_bind]
    apply close
    intro value grouped
    refine takes_pure fun span => ⟨?_, grouped⟩
    simpa [Stmt.lexemes] using Respelled.refl _

/-- A branch after its first word. -/
theorem takes_branch (own : Takes MeansExpr inner) (block : Takes MeansBlock body) :
    TakesStmt .if (branch inner body) := by
  refine (takes_condition own).bind ?_
  rintro _ test ⟨rfl, testGrouped⟩
  refine block.bind fun thenTaken thenBody ⟨thenMeans, thenGrouped⟩ => ?_
  have close (elseTaken : List Lexeme) (elseBody : List Stmt)
      (elseMeans : Respelled elseTaken (if elseBody.isEmpty then []
        else .keyword .else :: braced (Stmt.bodyLexemes elseBody)))
      (elseGrouped : Stmt.AllGrouped elseBody) (span : Span) :
      MeansStmt (.keyword .if :: (parenthesized test.lexemes ++ (thenTaken ++ elseTaken)))
        (.branch test thenBody elseBody span) := by
    refine ⟨?_, testGrouped, thenGrouped, elseGrouped⟩
    rw [Stmt.lexemes]
    exact .cons _ ((Respelled.refl _).append (thenMeans.append elseMeans))
  refine (takes_accept (by simp)).bind fun _ there mark => ?_
  subst mark
  cases there with
  | true =>
    refine block.bind fun elseTaken elseBody ⟨elseMeans, elseGrouped⟩ => takes_pure fun span => ?_
    refine close (.keyword .else :: (elseTaken ++ [])) elseBody ?_ elseGrouped span
    rw [List.append_nil]
    cases elseBody with
    | nil => exact (elseMeans.cons (.keyword .else)).trans respelled_emptyElse
    | cons stmt rest => exact elseMeans.cons (.keyword .else)
  | false =>
    dsimp only
    rw [pure_bind]
    exact takes_pure fun span => close [] [] (.refl _) trivial span

/-- A loop after its first word. -/
theorem takes_loop (own : Takes MeansExpr inner) (block : Takes MeansBlock body) :
    TakesStmt .while (loop inner body) := by
  refine (takes_condition own).bind ?_
  rintro _ test ⟨rfl, testGrouped⟩
  refine block.bind fun bodyTaken stmts ⟨means, grouped⟩ => takes_pure fun span => ?_
  refine ⟨?_, testGrouped, grouped⟩
  rw [Stmt.lexemes, List.append_nil]
  exact .cons _ ((Respelled.refl _).append means)

/-- A call statement after its first word. -/
theorem takes_callStatement (own : Takes MeansExpr inner) :
    TakesStmt .do (callStatement inner) := by
  refine takes_identifier.bind fun _ first named => ?_
  subst named
  refine (takes_callAfter own first).bind fun taken call ⟨means, grouped⟩ => ?_
  refine (takes_expect (by simp)).bind fun _ _ closing => takes_pure fun span => ⟨?_, grouped⟩
  subst closing
  rw [Stmt.lexemes, ← means]
  exact .refl _

/-- A return statement after its first word. -/
theorem takes_returnStatement (own : Takes MeansExpr inner) :
    TakesStmt .return (returnStatement inner) := by
  refine takes_peek fun found => ?_
  dsimp only
  split
  · rw [pure_bind]
    refine Takes.from ((takes_expect (by simp)).bind fun _ _ closing => takes_pure fun span => ?_)
    subst closing
    exact ⟨.refl _, fun value none => by contradiction⟩
  · refine Takes.from (own.bind ?_)
    rintro _ value ⟨rfl, grouped⟩
    rw [pure_bind]
    refine (takes_expect (by simp)).bind fun _ _ closing => takes_pure fun span => ?_
    subst closing
    refine ⟨.refl _, ?_⟩
    rintro _ ⟨rfl⟩
    exact grouped

/-- A statement. -/
theorem takes_statement (own : Takes MeansExpr inner) (block : Takes MeansBlock body) :
    Takes MeansStmt (statement inner body) := by
  refine takes_spanned (takes_peek fun found => ?_)
  split
  · exact takesFrom_advance (by simp) (takes_assignment own)
  · exact takesFrom_advance (by simp) (takes_branch own block)
  · exact takesFrom_advance (by simp) (takes_loop own block)
  · exact takesFrom_advance (by simp) (takes_callStatement own)
  · exact takesFrom_advance (by simp) (takes_returnStatement own)
  · exact takes_refuse.from

/-- Statements. -/
theorem takes_statementsWith {item : Reader Stmt} (own : Takes MeansStmt item) :
    Takes MeansBody (statementsWith item) := by
  refine (takes_repeat fun found _ => own.from).weaken ?_
  rintro _ stmts ⟨parts, rfl, each⟩
  induction each with
  | nil => exact ⟨.refl _, trivial⟩
  | cons head _ ih => exact ⟨head.1.append ih.1, head.2, ih.2⟩

/-- A block, at every level. -/
theorem takes_block (levels : Nat) : Takes MeansBlock (block levels) := by
  induction levels with
  | zero =>
    rw [block]
    exact (takes_expect (by simp)).bind fun _ _ _ => takes_refuse
  | succ levels ih =>
    rw [block]
    refine (takes_expect (by simp)).bind fun _ _ opening => ?_
    refine Takes.bind (takes_statementsWith (takes_statement (takes_levels levels).1 ih)) ?_
    intro taken stmts ⟨means, grouped⟩
    refine (takes_expect (by simp)).bind fun _ _ closing => takes_pure ⟨?_, grouped⟩
    subst opening closing
    exact .cons _ (means.append (.refl _))

/-- The statements of a subroutine. -/
theorem takes_statements (levels : Nat) : Takes MeansBody (statements levels) :=
  takes_statementsWith (takes_statement (takes_levels levels).1 (takes_block levels))

end Statements

/-! ## Classes -/

/-- The lexeme of a type. -/
theorem takes_typeName : Takes (fun taken type => taken = [JackType.lexeme type]) typeName := by
  refine takes_peek fun found => ?_
  dsimp only
  split
  · rw [pure_bind]
    exact takesFrom_advance (by simp) (takes_pure rfl)
  · rw [pure_bind]
    exact takesFrom_advance (by simp) (takes_pure rfl)
  · rw [pure_bind]
    exact takesFrom_advance (by simp) (takes_pure rfl)
  · rw [pure_bind]
    exact takesFrom_advance (by simp) (takes_pure rfl)
  · intro cursor value after same run
    cases run

/-- Parts that mean names one by one are their lexemes. -/
theorem parts_eq_map {α : Type} {write : α → List Lexeme} {parts : List (List Lexeme)}
    {values : List α} (each : List.Forall₂ (fun taken value => taken = write value) parts values) :
    parts = values.map write := by
  rw [← List.forall₂_eq_eq_eq, List.forall₂_map_right_iff]
  exact each

/-- The rest of a declaration of variables, which gives each name a declaration of its own. -/
theorem takes_declaredNames {word : Keyword} (declares : word ∈ [Keyword.static, .field, .var])
    (type : JackType) :
    Takes (fun taken names => Respelled (.keyword word :: type.lexeme :: taken)
      (names.flatMap (declarationLexemes word type))) declaredNames := by
  refine (takes_commaSeparated takes_identifier).bind ?_
  rintro _ names ⟨some, parts, each, rfl⟩
  refine (takes_expect (by simp)).bind fun _ _ closing => takes_pure ?_
  subst closing
  obtain rfl := parts_eq_map each
  cases names with
  | nil => contradiction
  | cons first others => exact respelled_declaration declares type first others

/-- The word that declares class variables of a kind. -/
theorem ClassStorage.ofLexeme?_eq_some {found : Lexeme} {storage : ClassStorage}
    (declares : ClassStorage.ofLexeme? found = some storage) : found = .keyword storage.keyword := by
  unfold ClassStorage.ofLexeme? at declares
  split at declares
  · exact Option.some.inj declares ▸ rfl
  · exact Option.some.inj declares ▸ rfl
  · contradiction

/-- The word that declares subroutines of a kind. -/
theorem SubroutineKind.ofLexeme?_eq_some {found : Lexeme} {kind : SubroutineKind}
    (declares : SubroutineKind.ofLexeme? found = some kind) : found = .keyword kind.keyword := by
  unfold SubroutineKind.ofLexeme? at declares
  split at declares
  · exact Option.some.inj declares ▸ rfl
  · exact Option.some.inj declares ▸ rfl
  · exact Option.some.inj declares ▸ rfl
  · contradiction

/-- A declaration of class variables. -/
theorem takes_classVariables {found : Lexeme}
    (declares : (ClassStorage.ofLexeme? found).isSome = true) :
    TakesFrom found
      (fun taken vars => Respelled taken
        (vars.flatMap fun item => declarationLexemes item.storage.keyword item.type item.name))
      classVariables := by
  obtain ⟨storage, known⟩ := Option.isSome_iff_exists.mp declares
  obtain rfl := ClassStorage.ofLexeme?_eq_some known
  refine takesFrom_peek ?_
  rw [known]
  refine takesFrom_advance (by simp) (takes_typeName.bind ?_)
  rintro _ type rfl
  have declares : storage.keyword ∈ [Keyword.static, .field, .var] := by cases storage <;> decide
  refine (takes_declaredNames declares type).bind fun taken names means => takes_pure ?_
  rw [List.append_nil, List.flatMap_map]
  exact means

/-- A declaration of local variables. -/
theorem takes_localVariables :
    Takes (fun taken locals => Respelled taken
      (locals.flatMap fun item => declarationLexemes .var item.type item.name))
      localVariables := by
  refine (takes_expect (by simp)).bind fun _ _ mark => takes_typeName.bind ?_
  rintro _ type rfl
  subst mark
  have declares : Keyword.var ∈ [Keyword.static, .field, .var] := by decide
  refine (takes_declaredNames declares type).bind fun taken names means => takes_pure ?_
  rw [List.append_nil, List.flatMap_map]
  exact means

/-- Declarations one after the other. -/
theorem respelled_flatten {α : Type} {write : α → List Lexeme} {taken : List Lexeme}
    {values : List (List α)}
    (parted : InParts (fun part list => Respelled part (list.flatMap write)) taken values) :
    Respelled taken (values.flatten.flatMap write) := by
  obtain ⟨parts, rfl, each⟩ := parted
  induction each with
  | nil => exact .refl _
  | cons head _ ih =>
    rw [List.flatten_cons, List.flatten_cons, List.flatMap_append]
    exact head.append ih

/-- A parameter. -/
theorem takes_parameter : Takes (fun taken param => taken = Variable.lexemes param) parameter := by
  refine takes_typeName.bind ?_
  rintro _ type rfl
  refine takes_identifier.bind ?_
  rintro _ name rfl
  exact takes_pure rfl

/-- Parameters in parentheses. -/
theorem takes_parameters :
    Takes (fun taken params => taken = parenthesized (listed (params.map Variable.lexemes)))
      parameters := by
  rw [parameters_eq]
  refine (takes_parenthesized takes_parameter).weaken ?_
  rintro _ params ⟨parts, each, rfl⟩
  rw [parts_eq_map each]

/-- Lexemes of a subroutine, whose operators group as they bind. -/
def MeansSubroutine (taken : List Lexeme) (subroutine : Subroutine) : Prop :=
  Respelled taken subroutine.lexemes ∧ Stmt.AllGrouped subroutine.body

/-- What stands behind the kind and the result of a subroutine. -/
theorem takes_subroutineAfter (kind : SubroutineKind) (result : JackType) :
    Takes (fun taken own => MeansSubroutine (.keyword kind.keyword :: result.lexeme :: taken) own)
      (subroutineAfter kind result) := by
  refine takes_identifier.bind ?_
  rintro _ name rfl
  refine takes_parameters.bind ?_
  rintro _ params rfl
  refine (takes_expect (by simp)).bind fun _ _ opening => ?_
  refine (takes_repeat fun found _ => takes_localVariables.from).bind fun front locals declared => ?_
  refine (takes_statements nestingLimit).bind fun back body ⟨means, grouped⟩ => ?_
  refine (takes_expect (by simp)).bind fun _ _ closing => takes_pure ⟨?_, grouped⟩
  subst opening closing
  have inBraces := ((respelled_flatten declared).append means).within
    [.symbol .braceOpen] [.symbol .braceClose]
  simpa [Subroutine.lexemes, braced] using Respelled.append
    (.refl (.keyword kind.keyword :: result.lexeme :: .identifier name.node ::
      parenthesized (listed (params.map Variable.lexemes)))) inBraces

/-- A subroutine. -/
theorem takes_subroutine {found : Lexeme}
    (declares : (SubroutineKind.ofLexeme? found).isSome = true) :
    TakesFrom found MeansSubroutine subroutine := by
  obtain ⟨kind, known⟩ := Option.isSome_iff_exists.mp declares
  obtain rfl := SubroutineKind.ofLexeme?_eq_some known
  rw [subroutine_eq]
  refine takesFrom_peek ?_
  rw [known]
  refine takesFrom_advance (by simp) ((takes_accept (by simp)).bind fun _ nothing mark => ?_)
  subst mark
  cases nothing with
  | true => exact takes_subroutineAfter kind .void
  | false =>
    refine takes_typeName.bind ?_
    rintro _ result rfl
    exact takes_subroutineAfter kind result

/-- Lexemes of a class, whose operators group as they bind. -/
def MeansClass (taken : List Lexeme) (cls : Class) : Prop :=
  Respelled taken cls.lexemes ∧ cls.Grouped

/-- A class. -/
theorem takes_classDeclaration : Takes MeansClass classDeclaration := by
  refine (takes_expect (by simp)).bind fun _ _ word => takes_identifier.bind ?_
  rintro _ name rfl
  refine (takes_expect (by simp)).bind fun _ _ opening => ?_
  refine (takes_repeat fun found => takes_classVariables).bind fun front vars declared => ?_
  refine (takes_repeat fun found => takes_subroutine).bind ?_
  rintro _ subroutines ⟨parts, rfl, each⟩
  refine (takes_expect (by simp)).bind fun _ _ closing => takes_pure ?_
  subst word opening closing
  have all : Respelled parts.flatten (subroutines.flatMap Subroutine.lexemes) ∧
      ∀ subroutine ∈ subroutines, Stmt.AllGrouped subroutine.body := by
    induction each with
    | nil => exact ⟨.refl _, fun subroutine member => by contradiction⟩
    | cons head _ ih =>
      exact ⟨head.1.append ih.1, List.forall_mem_cons.mpr ⟨head.2, ih.2⟩⟩
  refine ⟨?_, all.2⟩
  have inBraces := ((respelled_flatten declared).append all.1).within
    [.symbol .braceOpen] [.symbol .braceClose]
  simpa [Class.lexemes, braced] using Respelled.append
    (.refl [.keyword .class, .identifier name.node]) inBraces

/-- Lexemes with one end of the text, of which some are taken and an end comes next, have only that
end left. -/
theorem eq_end {front taken left : List Lexeme} (same : front ++ [.eof] = taken ++ left)
    (frontOpen : .eof ∉ front) (takenOpen : .eof ∉ taken) (last : left.headD .eof = .eof) :
    left = [.eof] := by
  rcases List.append_eq_append_iff.mp same with ⟨more, rfl, ends⟩ | ⟨more, rfl, rfl⟩
  · cases more with
    | nil => exact ends.symm
    | cons lexeme more =>
      obtain ⟨rfl, -⟩ := List.cons.inj ends
      exact absurd (List.mem_append_right _ List.mem_cons_self) takenOpen
  · cases more with
    | nil => rfl
    | cons lexeme more =>
      obtain rfl : lexeme = .eof := last
      exact absurd (List.mem_append_right _ List.mem_cons_self) frontOpen

/-- A source text that is read as a class has the lexemes that write the class, apart from
declarations of several names and empty else blocks, and the operators of the class group as they
bind. -/
theorem respelled_of_readClass {source : String} {cls : Class}
    (read : readClass source = .ok cls) :
    ∃ lexemes, scan source = .ok lexemes ∧
      Respelled (lexemes.map Spanned.node) (cls.lexemes ++ [.eof]) ∧ cls.Grouped := by
  obtain ⟨lexemes, scanned, rest⟩ := bind_eq_ok.mp read
  obtain ⟨⟨result, after⟩, run, rest⟩ := bind_eq_ok.mp rest
  obtain rfl := Except.ok.inj rest
  obtain ⟨made, last⟩ := run_wholeClass.mp run
  obtain ⟨taken, begins, open_, means, grouped⟩ := takes_classDeclaration _ _ _ made
  obtain ⟨front, ends, frontOpen⟩ := ends_of_scan scanned
  refine ⟨lexemes, scanned, ?_, grouped⟩
  rw [Cursor.node_next] at last
  rw [Cursor.lexemes] at begins
  rw [begins, eq_end (ends.symm.trans begins) frontOpen open_ last]
  exact means.append (.refl _)

/-- A class with a declaration of two names, an empty else block and a chain of operators. -/
def chainSource : String :=
  "class Chain \x7b field int x, y; method int sum() \x7b if (x = y) \x7b \x7d else \x7b \x7d " ++
    "return 1 + -x * (y - 2) - 3; \x7d \x7d"

/-- The lexemes of a class with a chain of operators. -/
theorem chain_respelled :
    ∃ cls lexemes, readClass chainSource = .ok cls ∧ scan chainSource = .ok lexemes ∧
      Respelled (lexemes.map Spanned.node) (cls.lexemes ++ [.eof]) ∧ cls.Grouped := by
  have reads : (readClass chainSource).toOption.isSome = true := by decide +kernel
  obtain ⟨cls, read⟩ := Option.isSome_iff_exists.mp reads
  have read : readClass chainSource = .ok cls := toOption_eq_some.mp read
  obtain ⟨lexemes, means⟩ := respelled_of_readClass read
  exact ⟨cls, lexemes, read, means⟩

end JackToolchain.Jack
