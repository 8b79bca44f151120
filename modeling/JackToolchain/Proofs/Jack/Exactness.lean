import JackToolchain.Proofs.Jack.Levels
import JackToolchain.Proofs.Jack.Moving
import JackToolchain.Proofs.Jack.Standing

/-!
# Exact places

The names, expressions and statements of a class that is read go from the first byte of their first
lexeme to the last byte of their last one. What is inside one of them stands inside its span, in the
order of the text. And the text of an expression is that expression when it is read alone, moved to
the front: the operators in it group in the same way without the text around it.
-/
namespace JackToolchain.Jack

/-! ## Depth and grouping of nodes -/

/-- The operators of a node group as they bind, and it is not too deep. -/
def Node.Sound : Node → Prop
  | .name _ => True
  | .expr value => value.Grouped ∧ value.levels < nestingLimit
  | .stmt step => step.Grouped ∧ step.levels ≤ nestingLimit

section Sound

variable {node parent : Node}

/-- The statements of a body group as they bind if the body does. -/
theorem Stmt.grouped_of_mem {body : List Stmt} (grouped : Stmt.AllGrouped body) {step : Stmt}
    (member : step ∈ body) : step.Grouped := by
  induction body with
  | nil => contradiction
  | cons first rest ih =>
    rcases List.mem_cons.mp member with rfl | later
    · exact grouped.1
    · exact ih grouped.2 later

/-- The statements of a body are sound if the body is. -/
theorem sound_of_body {body : List Stmt} (grouped : Stmt.AllGrouped body)
    (enough : Stmt.allLevels body ≤ nestingLimit) (member : node ∈ body.map .stmt) :
    node.Sound := by
  obtain ⟨step, inside, rfl⟩ := List.mem_map.mp member
  exact ⟨Stmt.grouped_of_mem grouped inside,
    Nat.le_trans (Stmt.levels_le_of_mem inside) enough⟩

/-- The names and arguments of a call are sound if the arguments are. -/
theorem sound_of_call {receiver : Option Name} {callee : Name} {args : List Expr}
    (grouped : Expr.AllGrouped args) (enough : Expr.allLevels args ≤ nestingLimit)
    (member : node ∈ callNodes receiver callee args) : node.Sound := by
  rcases List.mem_append.mp member with first | others
  · obtain ⟨label, -, rfl⟩ := List.mem_map.mp first
    trivial
  · rcases List.mem_cons.mp others with rfl | argument
    · trivial
    · obtain ⟨arg, inside, rfl⟩ := List.mem_map.mp argument
      exact ⟨Expr.allGrouped_iff.mp grouped arg inside,
        Nat.lt_of_lt_of_le (Expr.levels_lt_of_mem inside) enough⟩

/-- What is inside a sound expression is sound. -/
theorem sound_of_expr {expr : Expr} (grouped : expr.Grouped) (enough : expr.levels < nestingLimit)
    (member : node ∈ expr.children) : node.Sound := by
  cases expr with
  | binary op left right span =>
    rw [Expr.levels] at enough
    rcases List.mem_cons.mp member with rfl | other
    · exact ⟨grouped.2.2.1, by omega⟩
    · obtain rfl := List.mem_singleton.mp other
      exact ⟨grouped.2.2.2, by omega⟩
  | unary op operand span =>
    obtain rfl := List.mem_singleton.mp member
    exact ⟨grouped.2, Nat.lt_of_succ_lt enough⟩
  | group inner span =>
    obtain rfl := List.mem_singleton.mp member
    exact ⟨grouped, Nat.lt_of_succ_lt enough⟩
  | element array index span =>
    rcases List.mem_cons.mp member with rfl | other
    · trivial
    · obtain rfl := List.mem_singleton.mp other
      exact ⟨grouped, Nat.lt_of_succ_lt enough⟩
  | «variable» name span =>
    obtain rfl := List.mem_singleton.mp member
    trivial
  | call receiver callee args span => exact sound_of_call grouped (Nat.le_of_lt enough) member
  | _ => contradiction

/-- What is inside a sound statement is sound. -/
theorem sound_of_stmt {stmt : Stmt} (grouped : stmt.Grouped) (enough : stmt.levels ≤ nestingLimit)
    (member : node ∈ stmt.children) : node.Sound := by
  cases stmt with
  | assign target value span =>
    rcases List.mem_cons.mp member with rfl | other
    · trivial
    · obtain rfl := List.mem_singleton.mp other
      exact ⟨grouped, enough⟩
  | assignElement array index value span =>
    rw [Stmt.levels] at enough
    rcases List.mem_cons.mp member with rfl | others
    · trivial
    · rcases List.mem_cons.mp others with rfl | other
      · exact ⟨grouped.1, by omega⟩
      · obtain rfl := List.mem_singleton.mp other
        exact ⟨grouped.2, by omega⟩
  | branch condition thenBody elseBody span =>
    rw [Stmt.levels] at enough
    rcases List.mem_cons.mp member with rfl | others
    · exact ⟨grouped.1, by omega⟩
    · rcases List.mem_append.mp others with inThen | inElse
      · exact sound_of_body grouped.2.1 (by omega) inThen
      · exact sound_of_body grouped.2.2 (by omega) inElse
  | loop condition body span =>
    rw [Stmt.levels] at enough
    rcases List.mem_cons.mp member with rfl | others
    · exact ⟨grouped.1, by omega⟩
    · exact sound_of_body grouped.2 (by omega) others
  | call receiver callee args span => exact sound_of_call grouped enough member
  | leave result span =>
    cases result with
    | none => contradiction
    | some value =>
      obtain rfl := List.mem_singleton.mp member
      exact ⟨grouped value rfl, enough⟩

/-- The nodes of a class are sound if its operators group as they bind and it is not too deep. -/
theorem Class.Contains.sound {cls : Class} (grouped : cls.Grouped)
    (shallow : ∀ own ∈ cls.subroutines, own.Shallow) (contains : cls.Contains node) :
    node.Sound := by
  induction contains with
  | top member =>
    rcases List.mem_cons.mp member with rfl | others
    · trivial
    · rcases List.mem_append.mp others with declared | inside
      · obtain ⟨item, -, rfl⟩ := List.mem_map.mp declared
        trivial
      · obtain ⟨own, isOwn, part⟩ := List.mem_flatMap.mp inside
        rcases List.mem_cons.mp part with rfl | rest
        · trivial
        · rcases List.mem_append.mp rest with param | rest
          · obtain ⟨item, -, rfl⟩ := List.mem_map.mp param
            trivial
          · rcases List.mem_append.mp rest with declared | step
            · obtain ⟨item, -, rfl⟩ := List.mem_map.mp declared
              trivial
            · exact sound_of_body (grouped own isOwn) (shallow own isOwn) step
  | @child parent node own member ih =>
    cases parent with
    | name label => contradiction
    | expr value => exact sound_of_expr ih.1 ih.2 member
    | stmt step => exact sound_of_stmt ih.1 ih.2 member

end Sound

/-! ## Exact nodes -/

/-- Lexemes write a node: they are its own, but for empty else branches in a statement. -/
def Node.WrittenBy (tokens : List (Spanned Lexeme)) : Node → Prop
  | .name label => tokens.map Spanned.node = [.identifier label.node]
  | .expr value => tokens.map Spanned.node = value.lexemes
  | .stmt step => Respelled (tokens.map Spanned.node) step.lexemes

/-- A text is read as an expression, and nothing is left of it. -/
def ReadsAlone (text : String) (value : Expr) : Prop :=
  ∃ tokens after, scan text = .ok tokens ∧
    (expression nestingLimit).run ⟨tokens, .nowhere⟩ = .ok (value, after) ∧
    after.next.node = .eof

/-- A node stands exactly where its span says, in a source with the given lexemes. -/
structure Node.Exact (source : String) (tokens : List (Spanned Lexeme)) (node : Node) : Prop where
  /-- Its span goes from the start of the first of the lexemes that write it to the end of the last
  one. -/
  covers : ∃ front own back, tokens = front ++ (own ++ back) ∧ Writes own [node.piece] ∧
    node.WrittenBy own ∧ GoesOver own node.span
  /-- The nodes inside it are inside its span. -/
  inside : ∀ child ∈ node.children,
    node.span.start ≤ child.span.start ∧ child.span.stop ≤ node.span.stop
  /-- They are in the order of the text and do not overlap. -/
  apart : Apart node.children
  /-- The text in the span of a name is the name. -/
  name : ∀ label, node = .name label → label.span.Covers source label.node
  /-- The text in the span of an expression is read alone as this expression, moved to the front. -/
  alone : ∀ value, node = .expr value → ∃ text part, value.span.Covers source text ∧
    ReadsAlone text part ∧ part.shift value.span.start = value

section Exact

variable {source : String} {tokens taken front own back : List (Spanned Lexeme)} {node : Node}

/-- The lexemes of a node write it. -/
theorem Writes.writtenBy (writes : Writes own [node.piece]) : node.WrittenBy own := by
  cases node with
  | name label =>
    obtain rfl := writes.name_inv
    rfl
  | expr value => exact writes.expr_inv.1.expr_nodes
  | stmt step =>
    have respelled := writes.stmt_inv.1.respelled
    rwa [lexemesOf_stmt] at respelled

/-- The lexemes of a text are in its order. -/
theorem inOrder_of_scan (scanned : scan source = .ok tokens) : InOrder tokens := by
  have segments : Segments source 0 tokens :=
    (scans_of_scan scanned).segments (List.nil_append _).symm rfl
  exact ⟨fun token member => (segments.inBounds token member).2.1,
    segments.ordered.imp fun both => both.2⟩

/-- Lexemes of an expression and the end of the text are read as that expression. -/
theorem exists_run_expression {value : Expr} (sound : (Node.expr value).Sound) {offset : Nat}
    (nodes : own.map Spanned.node = value.lexemes) :
    ∃ part after, (expression nestingLimit).run ⟨own ++ [endAt offset], .nowhere⟩ =
        .ok (part, after) ∧
      after.next.node = .eof ∧ part.unplaced = value.unplaced ∧ Writes own [.expr part] := by
  have admitted := (rereads_of_grouped value sound.1).chain.whole sound.2
  obtain ⟨part, after, run, left, same⟩ := admitted ⟨own ++ [endAt offset], .nowhere⟩ [.eof]
    (by rw [Cursor.lexemes, List.map_append, nodes]; rfl)
    ⟨by decide, fun op none => by contradiction⟩
  obtain ⟨taken, passes, written⟩ := (consumes_levels nestingLimit).1 _ _ _ run
  -- Only the end of the text is left, so what is taken is all the lexemes.
  have rest : own ++ [endAt offset] = taken ++ after.rest := passes.rest
  have ending : after.rest.length = 1 := by
    rw [← List.length_map Spanned.node]
    exact congrArg List.length left
  obtain ⟨rfl, -⟩ := List.append_inj' rest ending.symm
  exact ⟨part, after, run, by rw [after.node_next, left]; rfl, same, written⟩

/-- The text of an expression is read alone as that expression, moved to the front. -/
theorem exists_readsAlone {value : Expr} (sound : (Node.expr value).Sound)
    (scanned : scan source = .ok (front ++ (own ++ back)))
    (proper : ∀ token ∈ front ++ own, token.node ≠ .eof) (writes : Writes own [.expr value])
    (extent : GoesOver own value.span) :
    ∃ text part, value.span.Covers source text ∧ ReadsAlone text part ∧
      part.shift value.span.start = value := by
  obtain ⟨first, last, starts, ends, span⟩ := extent
  obtain ⟨more, rfl⟩ := List.head?_eq_some_iff.mp starts
  obtain ⟨before, part, behind, moved, whole, start, stop, alone, shifted⟩ :=
    scan_part scanned rfl proper
  obtain ⟨final, isFinal, place⟩ := exists_lastPlace first more
  obtain rfl := Option.some.inj (ends.symm.trans isFinal)
  rw [place] at stop
  -- The slice has the lexemes of the expression, so it is read as that expression but for places.
  have nodes : moved.map Spanned.node = value.lexemes := by
    rw [← writes.expr_inv.1.expr_nodes, shifted, List.map_map]
    rfl
  obtain ⟨result, after, run, done, same, written⟩ := exists_run_expression sound nodes
  refine ⟨String.ofList part, result, ?_, ⟨_, after, alone, run, done⟩, ?_⟩
  · rw [span, start, stop]
    exact Span.covers_of_append whole
  · rw [shifted] at writes
    rw [span, start]
    exact written.expr_moved writes same

/-- The children of a node that is written by lexemes in order stand on them. -/
theorem Writes.occupy_children (writes : Writes own [node.piece]) (ordered : InOrder own) :
    Occupy own node.children := by
  rw [← nodesOf_form]
  cases node with
  | name label => exact ⟨.nil, fun _ member => by contradiction⟩
  | expr value => exact writes.expr_inv.1.occupy ordered
  | stmt step => exact writes.stmt_inv.1.occupy ordered

/-- A node that is written by some of the lexemes of a source stands exactly where its span says. -/
theorem Node.exact_of_writes {last : Spanned Lexeme} (sound : node.Sound)
    (scanned : scan source = .ok (front ++ (own ++ back) ++ [last]))
    (proper : ∀ token ∈ front ++ (own ++ back), token.node ≠ .eof)
    (writes : Writes own [node.piece]) : node.Exact source (front ++ (own ++ back)) := by
  have part : own.Sublist (front ++ (own ++ back)) :=
    (List.sublist_append_left own back).trans (List.sublist_append_right front _)
  have ordered := (inOrder_of_scan scanned).sublist (part.trans (List.sublist_append_left _ _))
  have extent := goesOver_of_writes ordered writes
  have children := writes.occupy_children ordered
  refine ⟨⟨front, own, back, rfl, writes, writes.writtenBy, extent⟩, fun child member => ?_,
    children.apart, ?_, ?_⟩
  · obtain ⟨first, final, starts, ends, span⟩ := extent
    obtain ⟨left, isLeft, right, isRight, place⟩ := children.within child member
    rw [span, place]
    exact ⟨(ordered.between starts ends isLeft).1, (ordered.between starts ends isRight).2⟩
  · rintro label rfl
    obtain rfl := writes.name_inv
    exact covers_of_name scanned (List.mem_append_left _ (part.subset List.mem_cons_self))
  · rintro value rfl
    rw [List.append_assoc, List.append_assoc] at scanned
    refine exists_readsAlone sound scanned (fun token member => proper token ?_) writes extent
    rw [← List.append_assoc]
    exact List.mem_append_left _ member

/-- Every name, expression and statement of a class that is read stands exactly where its span says,
and those that are inside no other one are in the order of the text. -/
theorem exact_of_readClass {cls : Class} (read : readClass source = .ok cls) :
    ∃ tokens last form, scan source = .ok (tokens ++ [last]) ∧ cls.Form form ∧
      Writes tokens form ∧ Apart cls.nodes ∧
      ∀ node, cls.Contains node → node.Exact source tokens := by
  obtain ⟨tokens, last, form, scanned, proper, own, writes⟩ := writes_of_readClass read
  obtain ⟨_, -, -, grouped⟩ := respelled_of_readClass read
  have ordered := (inOrder_of_scan scanned).sublist (List.sublist_append_left tokens [last])
  have top := writes.occupy ordered
  rw [nodesOf_class own] at top
  refine ⟨tokens, last, form, scanned, own, writes, top.apart, fun node contains => ?_⟩
  obtain ⟨front, part, back, rfl, written⟩ := writes.part (contains.holds own)
  exact Node.exact_of_writes (contains.sound grouped (shallow_of_readClass read)) scanned proper
    written

/-- A class with a comment that looks like an operator inside an expression. -/
def remarkedSum : String :=
  "class T \x7b function void f() \x7b let x = 10 /* + */ + a[-y]; return; \x7d \x7d"

/-- The nodes of the class stand where their spans say. -/
theorem remarkedSum_exact :
    ∃ cls, readClass remarkedSum = .ok cls ∧
      (cls.nodes.flatMap fun node => node :: node.children).map
        (fun node => (node.span.start, node.span.stop)) =
          [(6, 7), (24, 25), (30, 57), (34, 35), (38, 56), (58, 65)] ∧
      ∃ tokens last form, scan remarkedSum = .ok (tokens ++ [last]) ∧ cls.Form form ∧
        Writes tokens form ∧ Apart cls.nodes ∧
        ∀ node, cls.Contains node → node.Exact remarkedSum tokens := by
  have spans : (readClass remarkedSum).toOption.map (fun cls =>
      (cls.nodes.flatMap fun node => node :: node.children).map
        fun node => (node.span.start, node.span.stop)) =
      some [(6, 7), (24, 25), (30, 57), (34, 35), (38, 56), (58, 65)] := by
    decide +kernel
  obtain ⟨cls, reads, spans⟩ := Option.map_eq_some_iff.mp spans
  have read : readClass remarkedSum = .ok cls := toOption_eq_some.mp reads
  exact ⟨cls, read, spans, exact_of_readClass read⟩

end Exact

end JackToolchain.Jack
