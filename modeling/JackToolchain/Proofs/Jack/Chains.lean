import JackToolchain.Proofs.Jack.Admitting
import JackToolchain.Proofs.Jack.Recognition
import JackToolchain.Proofs.Jack.Spellable

/-!
# Reading expressions back

An expression whose operators group as they bind is read from its lexemes, at every level that is
enough. The argument follows the left spine: the reader of a chain comes to each operator of the
spine with the left operand in hand, as if it had started there, and with one level less for every
operator it has folded.
-/
namespace JackToolchain.Jack

open Reader

section Expressions

/-- The lexemes that end an expression. -/
def Ends (found : Lexeme) : Prop :=
  found ∈ [Lexeme.symbol .parenClose, .symbol .bracketClose, .symbol .comma, .symbol .semicolon]

/-- The lexemes that do not go on with a name as an element or a call. -/
def Separate (found : Lexeme) : Prop :=
  found ∉ [Lexeme.symbol .bracketOpen, .symbol .parenOpen, .symbol .dot]

instance (found : Lexeme) : Decidable (Ends found) := inferInstanceAs (Decidable (found ∈ _))

instance (found : Lexeme) : Decidable (Separate found) := inferInstanceAs (Decidable (found ∉ _))

/-- A lexeme that ends an expression is no operator. -/
theorem Ends.stops {found : Lexeme} (ends : Ends found) (floor : Nat) : Stops floor found := by
  simp only [Ends, List.mem_cons, List.not_mem_nil, or_false] at ends
  rcases ends with rfl | rfl | rfl | rfl <;> exact fun op none => by contradiction

/-- A lexeme that ends an expression does not go on with a name. -/
theorem Ends.separate {found : Lexeme} (ends : Ends found) : Separate found := by
  simp only [Ends, List.mem_cons, List.not_mem_nil, or_false] at ends
  rcases ends with rfl | rfl | rfl | rfl <;> decide

/-- An operator does not go on with a name. -/
theorem separate_operator (op : BinaryOp) : Separate (.symbol op.symbol) := by
  cases op <;> decide

/-- A reader takes the lexemes of an expression and makes that expression, apart from places. -/
def AdmitsExpr (reader : Reader Expr) (expr : Expr) (follows : Lexeme → Prop) : Prop :=
  Admits reader expr.lexemes follows fun value => value.unplaced = expr.unplaced

variable {inner : Reader Expr}

/-- The lexemes of a call after its first name. -/
def callRest (receiver : Option Name) (callee : Name) (args : List Expr) : List Lexeme :=
  receiver.elim [] (fun _ => [.symbol .dot, .identifier callee.node]) ++
    parenthesized (listed (args.map Expr.lexemes))

/-- A call begins with its first name. -/
theorem callLexemes_eq (receiver : Option Name) (callee : Name) (args : List Expr) :
    callLexemes receiver callee (args.map Expr.lexemes) =
      .identifier (receiver.getD callee).node :: callRest receiver callee args := by
  cases receiver <;> rfl

/-- An expression does not begin with a lexeme that ends one. -/
theorem Expr.head?_lexemes (expr : Expr) :
    ∃ first, expr.lexemes.head? = some first ∧ ¬Ends first := by
  cases expr with
  | binary op left right span =>
    obtain ⟨first, starts, proper⟩ := left.head?_lexemes
    refine ⟨first, ?_, proper⟩
    rw [Expr.lexemes, List.head?_append, starts]
    rfl
  | unary op operand span => exact ⟨_, rfl, by cases op <;> decide⟩
  | boolean value span => cases value <;> exact ⟨_, rfl, by decide⟩
  | call receiver callee args span =>
    refine ⟨.identifier (receiver.getD callee).node, ?_, by simp [Ends]⟩
    rw [Expr.lexemes, Expr.allLexemes_eq_map, callLexemes_eq]
    rfl
  | null span => exact ⟨_, rfl, by decide⟩
  | this span => exact ⟨_, rfl, by decide⟩
  | group inner span => exact ⟨_, rfl, by decide⟩
  | integer value span => exact ⟨_, rfl, by simp [Ends]⟩
  | string content span => exact ⟨_, rfl, by simp [Ends]⟩
  | «variable» name span => exact ⟨_, rfl, by simp [Ends]⟩
  | element array index span => exact ⟨_, rfl, by simp [Ends]⟩

/-- Items in parentheses with commas between them, of which none begins with what closes them. -/
theorem admits_parenthesized {ι α : Type} {item : Reader α} {items : List ι}
    {write : ι → List Lexeme} {follows : Lexeme → Prop} {each : ι → α → Prop}
    (own : ∀ one ∈ items, Admits item (write one) follows (each one))
    (starts : ∀ one, ∃ first, (write one).head? = some first ∧ first ≠ .symbol .parenClose)
    (comma : follows (.symbol .comma)) (closes : follows (.symbol .parenClose)) :
    Admits (parenthesizedItems item) (parenthesized (listed (items.map write))) anything
      (List.Forall₂ each items) := by
  refine admits_expect ?_
  cases items with
  | nil =>
    refine admits_peek ?_
    rw [if_pos rfl, pure_bind]
    exact admits_expect (admits_pure .nil)
  | cons one others =>
    obtain ⟨first, begins, opens⟩ := starts one
    have head : (listed ((one :: others).map write) ++ [Lexeme.symbol .parenClose]).head? =
        some first := by
      rw [listed, intercalate_comma, List.head?_append, List.head?_append, begins]
      rfl
    refine admits_peek_head head ?_
    rw [if_neg opens]
    refine Admits.bind (admits_commaSeparated (List.cons_ne_nil _ _) own comma) ?_ ?_
    · exact fun values all => admits_expect (admits_pure all)
    · exact fun found _ => ⟨closes, by simp⟩

/-- Arguments. -/
theorem admits_arguments {args : List Expr} (own : ∀ arg ∈ args, AdmitsExpr inner arg Ends) :
    Admits (arguments inner) (parenthesized (listed (args.map Expr.lexemes))) anything
      (fun values => values.map Expr.unplaced = args.map Expr.unplaced) := by
  have starts (arg : Expr) :
      ∃ first, arg.lexemes.head? = some first ∧ first ≠ .symbol .parenClose := by
    obtain ⟨first, begins, proper⟩ := arg.head?_lexemes
    exact ⟨first, begins, by rintro rfl; exact proper (by decide)⟩
  rw [arguments_eq]
  exact (admits_parenthesized own starts (by decide) (by decide)).weaken (fun _ may => may)
    fun _ => map_eq_of_forall₂

/-- A call after its first name. -/
theorem admits_callAfter {receiver : Option Name} {callee first : Name} {args : List Expr}
    (own : ∀ arg ∈ args, AdmitsExpr inner arg Ends)
    (same : first.node = (receiver.getD callee).node) :
    Admits (callAfter inner first) (callRest receiver callee args) anything
      (fun call => call.1.map unplacedName = receiver.map unplacedName ∧
        unplacedName call.2.1 = unplacedName callee ∧
        call.2.2.map Expr.unplaced = args.map Expr.unplaced) := by
  have list := admits_arguments own
  cases receiver with
  | none =>
    refine admits_accept_other (fun found _ => by simp [callRest, parenthesized]) ?_
    rw [callRest, ← List.append_nil (_ ++ _)]
    exact list.bind (fun values all => admits_pure ⟨rfl, unplacedName_congr same, all⟩)
      fun found _ => trivial
  | some receiver =>
    refine admits_accept (admits_identifier fun name named => ?_)
    rw [← List.append_nil (parenthesized _)]
    exact list.bind (fun values all => admits_pure
      ⟨congrArg some (unplacedName_congr same), unplacedName_congr named, all⟩)
      fun found _ => trivial

/-- An expression without operators at its top is read by `term`, given the readers for what is
inside it. -/
def AdmitsTerm (levels : Nat) (expr : Expr) : Prop :=
  AdmitsExpr (term (expression levels) (operand levels)) expr Separate

/-- A chain of operators does not go on. -/
theorem operators_stop {floor : Nat} {left : Expr} {cursor : Cursor} (levels : Nat)
    (stops : Stops floor cursor.next.node) :
    (operators levels floor left).run cursor = .ok (left, cursor) := by
  have none : (acceptOperator floor).run cursor = .ok (none, cursor) :=
    acceptOperator_none.mpr ⟨rfl, stops⟩
  cases levels with
  | zero =>
    rw [operators]
    exact bind_eq_ok.mpr ⟨(.none, cursor), none, rfl⟩
  | succ levels =>
    rw [operators]
    exact bind_eq_ok.mpr ⟨(.none, cursor), none, rfl⟩

/-- A chain of operators goes on with one that binds tightly enough. -/
theorem operators_step {floor : Nat} {left : Expr} {op : BinaryOp} {cursor : Cursor} (levels : Nat)
    (next : cursor.next.node = .symbol op.symbol) (tight : floor ≤ op.leftPower) :
    (operators (levels + 1) floor left).run cursor =
      ((term (expression levels) (operand levels) >>= operators levels op.rightPower) >>= fun right =>
        operators levels floor (.binary op left right (left.span.merge right.span))).run
          cursor.advance := by
  have accepted : (acceptOperator floor).run cursor = .ok (some op, cursor.advance) :=
    acceptOperator_some.mpr ⟨rfl, next, tight⟩
  rw [operators, StateT.run_bind, accepted, bind_assoc]
  rfl

/-- The chain that an expression writes is read as that expression: the reader is left where it
would go on, with the levels that its operators have not taken. -/
def ReadsChain (expr : Expr) : Prop :=
  ∀ levels floor, expr.levels ≤ levels → (∀ op ∈ expr.top?, floor ≤ op.leftPower) →
    ∀ cursor back, cursor.lexemes = expr.lexemes ++ back → Separate (back.headD .eof) →
      (∀ op ∈ expr.top?, ∀ other, BinaryOp.ofLexeme? (back.headD .eof) = some other →
        other.leftPower ≤ op.leftPower) →
      ∃ value after, after.lexemes = back ∧ value.unplaced = expr.unplaced ∧
        (term (expression levels) (operand levels) >>= operators levels floor).run cursor =
          (operators (levels - expr.folds) floor value).run after

/-- A term is a chain by itself. -/
theorem ReadsChain.of_term {expr : Expr} (bare : expr.folds = 0)
    (own : ∀ levels, expr.levels ≤ levels → AdmitsTerm levels expr) : ReadsChain expr := by
  intro levels floor enough _ cursor back left may _
  obtain ⟨value, after, run, afterLeft, same⟩ := own levels enough cursor back left may
  refine ⟨value, after, afterLeft, same, ?_⟩
  rw [bare, StateT.run_bind, run]
  rfl

/-- A chain goes on with an operator and its right operand. -/
theorem ReadsChain.binary {op : BinaryOp} {left right : Expr} {span : Span}
    (grouped : (Expr.binary op left right span).Grouped) (first : ReadsChain left)
    (second : ReadsChain right) : ReadsChain (.binary op left right span) := by
  obtain ⟨leftTight, rightTight, -, -⟩ := grouped
  intro levels floor enough tight cursor back begins may follows
  have tight : floor ≤ op.leftPower := tight op rfl
  have follows := follows op rfl
  rw [Expr.levels, Nat.max_le] at enough
  rw [Expr.lexemes, List.append_assoc, List.cons_append] at begins
  -- the left operand is the same chain up to this operator
  obtain ⟨leftValue, middle, middleLeft, leftSame, run⟩ := first levels floor enough.1
    (fun inner own => Nat.le_trans tight (leftTight inner own)) cursor _ begins
    (separate_operator op) fun inner own other next => by
      obtain rfl := Option.some.inj ((BinaryOp.ofLexeme?_eq_some.mpr rfl).symm.trans next)
      exact leftTight inner own
  obtain ⟨fewer, taken⟩ : ∃ fewer, levels - left.folds = fewer + 1 :=
    Nat.exists_eq_add_one.mpr (by omega)
  obtain ⟨next, middleRest⟩ := middle.of_lexemes_eq_cons middleLeft
  -- the right operand is a chain of its own, which stops where this operator's does
  obtain ⟨rightValue, after, afterLeft, rightSame, goesOn⟩ := second fewer op.rightPower (by omega)
    (fun inner own => rightTight inner own) middle.advance back middleRest may
    fun inner own other next => Nat.le_trans (follows other next) (Nat.le_of_lt (rightTight inner own))
  have stops : Stops op.rightPower after.next.node := by
    rw [after.node_next, afterLeft]
    exact fun other next => Nat.lt_succ_of_le (follows other next)
  refine ⟨.binary op leftValue rightValue (leftValue.span.merge rightValue.span), after, afterLeft,
    ?_, ?_⟩
  · rw [Expr.unplaced, Expr.unplaced, leftSame, rightSame]
  · rw [run, taken, operators_step fewer next tight, StateT.run_bind, goesOn,
      operators_stop _ stops]
    have left : levels - (Expr.binary op left right span).folds = fewer := by
      rw [Expr.folds]
      omega
    rw [left]
    rfl

/-- An expression is read as what it writes, in front of whatever does not go on with it. -/
theorem ReadsChain.whole {expr : Expr} (chain : ReadsChain expr) {levels : Nat}
    (enough : expr.levels < levels) :
    AdmitsExpr (Jack.expression levels) expr fun found => Separate found ∧ Stops 0 found := by
  obtain ⟨fewer, rfl⟩ := Nat.exists_eq_add_one.mpr (Nat.lt_of_le_of_lt (Nat.zero_le _) enough)
  intro cursor back begins follows
  obtain ⟨value, after, afterLeft, same, run⟩ := chain fewer 0 (Nat.le_of_lt_succ enough)
    (fun _ _ => Nat.zero_le _) cursor back begins follows.1
    fun _ _ other next => absurd (follows.2 other next) (Nat.not_lt_zero _)
  refine ⟨value, after, ?_, afterLeft, same⟩
  rw [Jack.expression]
  refine run.trans (operators_stop _ ?_)
  rw [after.node_next, afterLeft]
  exact follows.2

/-- An expression is read as what it writes in front of a lexeme that ends one. -/
theorem ReadsChain.expression {expr : Expr} (chain : ReadsChain expr) {levels : Nat}
    (enough : expr.levels < levels) : AdmitsExpr (expression levels) expr Ends :=
  (chain.whole enough).weaken (fun _ ends => ⟨ends.separate, ends.stops 0⟩) fun _ same => same

/-- An expression is a chain, and a term unless it is a bare binary operation. -/
structure Rereads (expr : Expr) : Prop where
  /-- As a chain of operators. -/
  chain : ReadsChain expr
  /-- As an expression without operators at its top. -/
  term : expr.top? = none → ∀ levels, expr.levels ≤ levels → AdmitsTerm levels expr

/-- A term is read back. -/
theorem Rereads.of_term {expr : Expr} (bare : expr.folds = 0)
    (own : ∀ levels, expr.levels ≤ levels → AdmitsTerm levels expr) : Rereads expr :=
  ⟨.of_term bare own, fun _ => own⟩

/-- A lexeme that is a whole expression. -/
theorem admits_leaf {found : Lexeme} {build : Span → Expr} {expr : Expr}
    (own : ∀ place, (build place).unplaced = expr.unplaced) :
    Admits (leaf build) [found] Separate
      (fun build => ∀ place, (build place).unplaced = expr.unplaced) :=
  admits_advance (admits_pure own)

/-- A sign and its operand. -/
theorem admits_sign {inside : Reader Expr} {op : UnaryOp} {expr : Expr} {span : Span}
    (own : AdmitsExpr inside expr Separate) :
    Admits (Reader.advance >>= fun _ => inside >>= fun value => pure (Expr.unary op value))
      (Expr.unary op expr span).lexemes Separate
      (fun build => ∀ place, (build place).unplaced = (Expr.unary op expr span).unplaced) := by
  refine admits_advance ?_
  rw [← List.append_nil expr.lexemes]
  refine own.bind (fun value same => admits_pure fun place => ?_) fun found may => may
  rw [Expr.unplaced, Expr.unplaced, same]

/-- A name that is a whole expression. -/
theorem admits_variable {name : Name} {text : String} {span : Span} (same : name.node = text) :
    Admits (nameTerm inner name) [] Separate
      (fun build => ∀ place, (build place).unplaced = (Expr.variable text span).unplaced) := by
  subst same
  refine admits_peek_nil fun found may => ?_
  split
  · exact absurd may (by decide)
  · exact absurd may (by decide)
  · exact absurd may (by decide)
  · exact admits_pure fun place => rfl

/-- An element of an array after its name. -/
theorem admits_element {name array : Name} {index : Expr} {span : Span}
    (same : name.node = array.node) (own : AdmitsExpr inner index Ends) :
    Admits (nameTerm inner name) (.symbol .bracketOpen :: (index.lexemes ++ [.symbol .bracketClose]))
      Separate
      (fun build => ∀ place, (build place).unplaced = (Expr.element array index span).unplaced) := by
  refine admits_peek (admits_advance ?_)
  have closes : Ends (.symbol .bracketClose) := by decide
  refine own.bind (fun value means => admits_expect (admits_pure fun place => ?_)) fun _ _ => closes
  rw [Expr.unplaced, Expr.unplaced, unplacedName_congr same, means]

/-- A call after its first name, in an expression. -/
theorem admits_call {name : Name} {receiver : Option Name} {callee : Name} {args : List Expr}
    {span : Span} (same : name.node = (receiver.getD callee).node)
    (own : ∀ arg ∈ args, AdmitsExpr inner arg Ends) :
    Admits (nameTerm inner name) (callRest receiver callee args) Separate
      (fun build => ∀ place,
        (build place).unplaced = (Expr.call receiver callee args span).unplaced) := by
  have call : Admits
      (callAfter inner name >>= fun call => pure (Expr.call call.1 call.2.1 call.2.2))
      (callRest receiver callee args) Separate (fun build => ∀ place,
        (build place).unplaced = (Expr.call receiver callee args span).unplaced) := by
    rw [← List.append_nil (callRest _ _ _)]
    refine (admits_callAfter own same).bind (fun value means => admits_pure fun place => ?_)
      fun _ _ => trivial
    obtain ⟨receiverSame, calleeSame, argsSame⟩ := means
    rw [Expr.unplaced, Expr.unplaced, Expr.allUnplaced_eq_map, Expr.allUnplaced_eq_map, receiverSame,
      calleeSame, argsSame]
  cases receiver <;> exact admits_peek call

/-- An expression in parentheses. -/
theorem admits_group {expr : Expr} {span : Span} (own : AdmitsExpr inner expr Ends) :
    Admits (Reader.advance >>= fun _ => inner >>= fun value =>
        expect (.symbol .parenClose) >>= fun _ => pure (Expr.group value))
      (Expr.group expr span).lexemes Separate
      (fun build => ∀ place, (build place).unplaced = (Expr.group expr span).unplaced) := by
  refine admits_advance ?_
  have closes : Ends (.symbol .parenClose) := by decide
  refine own.bind (fun value same => admits_expect (admits_pure fun place => ?_)) fun _ _ => closes
  rw [Expr.unplaced, Expr.unplaced, same]

mutual

/-- An expression whose operators group as they bind is read back. -/
theorem rereads_of_grouped (expr : Expr) (grouped : expr.Grouped) : Rereads expr := by
  cases expr with
  | binary op left right span =>
    exact ⟨.binary grouped (rereads_of_grouped left grouped.2.2.1).chain
      (rereads_of_grouped right grouped.2.2.2).chain, fun none => by contradiction⟩
  | unary op expr span =>
    refine .of_term rfl fun levels enough => ?_
    obtain ⟨fewer, rfl⟩ := Nat.exists_eq_add_one.mpr (Nat.lt_of_le_of_lt (Nat.zero_le _) enough)
    have own : AdmitsExpr (operand (fewer + 1)) expr Separate := by
      rw [operand]
      exact (rereads_of_grouped expr grouped.2).term grouped.1 fewer (Nat.le_of_succ_le_succ enough)
    refine admits_spanned (admits_peek ?_)
    cases op <;> exact admits_sign own
  | boolean value span =>
    refine .of_term rfl fun levels _ => admits_spanned ?_
    cases value <;> exact admits_peek (admits_leaf fun place => rfl)
  | call receiver callee args span =>
    refine .of_term rfl fun levels enough => admits_spanned ?_
    have own (arg : Expr) (member : arg ∈ args) : AdmitsExpr (expression levels) arg Ends :=
      (rereads_of_allGrouped args grouped arg member).chain.expression
        (Nat.lt_of_lt_of_le (Expr.levels_lt_of_mem member) enough)
    rw [Expr.lexemes, Expr.allLexemes_eq_map, callLexemes_eq]
    exact admits_peek (admits_identifier fun name same => admits_call same own)
  | group inner span =>
    refine .of_term rfl fun levels enough => admits_spanned (admits_peek ?_)
    exact admits_group ((rereads_of_grouped inner grouped).chain.expression enough)
  | element array index span =>
    refine .of_term rfl fun levels enough => admits_spanned (admits_peek ?_)
    exact admits_identifier fun name same =>
      admits_element same ((rereads_of_grouped index grouped).chain.expression enough)
  | «variable» name span =>
    refine .of_term rfl fun levels _ => admits_spanned (admits_peek ?_)
    exact admits_identifier fun name same => admits_variable same
  | null span =>
    exact .of_term rfl fun levels _ =>
      admits_spanned (admits_peek (admits_leaf fun place => rfl))
  | this span =>
    exact .of_term rfl fun levels _ =>
      admits_spanned (admits_peek (admits_leaf fun place => rfl))
  | integer value span =>
    exact .of_term rfl fun levels _ =>
      admits_spanned (admits_peek (admits_leaf fun place => rfl))
  | string content span =>
    exact .of_term rfl fun levels _ =>
      admits_spanned (admits_peek (admits_leaf fun place => rfl))

/-- Expressions whose operators group as they bind are read back. -/
theorem rereads_of_allGrouped (exprs : List Expr) (grouped : Expr.AllGrouped exprs) :
    ∀ expr ∈ exprs, Rereads expr := by
  cases exprs with
  | nil => exact fun expr member => by contradiction
  | cons first rest =>
    exact List.forall_mem_cons.mpr
      ⟨rereads_of_grouped first grouped.1, rereads_of_allGrouped rest grouped.2⟩

end

/-- An expression whose operators group as they bind and that is not too deep is read back. -/
theorem admits_expression {expr : Expr} {levels : Nat} (grouped : expr.Grouped)
    (enough : expr.levels < levels) : AdmitsExpr (expression levels) expr Ends :=
  (rereads_of_grouped expr grouped).chain.expression enough

end Expressions

end JackToolchain.Jack
