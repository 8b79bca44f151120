import JackToolchain.Proofs.Jack.Pieces

/-!
# Nodes of trees

The parts of a class that have a span are names, expressions and statements. On lexemes that are in
the order of their text, each of them goes exactly from its first lexeme to its last one, its
children are inside it, and its children stand one behind the other.
-/
namespace JackToolchain.Jack

/-! ## Nodes -/

/-- A part of a tree with a span. -/
inductive Node where
  | name (name : Name)
  | expr (expr : Expr)
  | stmt (stmt : Stmt)

/-- Where a node stands. -/
def Node.span : Node → Span
  | .name label => label.span
  | .expr value => value.span
  | .stmt step => step.span

/-- The nodes of a call. -/
def callNodes (receiver : Option Name) (callee : Name) (args : List Expr) : List Node :=
  receiver.toList.map .name ++ .name callee :: args.map .expr

/-- The nodes directly inside an expression, in the order of the text. A variable has its name. -/
def Expr.children : Expr → List Node
  | .binary _ left right _ => [.expr left, .expr right]
  | .unary _ operand _ => [.expr operand]
  | .integer _ _ | .string _ _ | .boolean _ _ | .null _ | .this _ => []
  | .variable name span => [.name ⟨name, span⟩]
  | .element array index _ => [.name array, .expr index]
  | .call receiver callee args _ => callNodes receiver callee args
  | .group inner _ => [.expr inner]

/-- The nodes directly inside a statement, in the order of the text. -/
def Stmt.children : Stmt → List Node
  | .assign target value _ => [.name target, .expr value]
  | .assignElement array index value _ => [.name array, .expr index, .expr value]
  | .branch condition thenBody elseBody _ =>
    .expr condition :: (thenBody.map .stmt ++ elseBody.map .stmt)
  | .loop condition body _ => .expr condition :: body.map .stmt
  | .call receiver callee args _ => callNodes receiver callee args
  | .leave result _ => result.toList.map .expr

/-- The nodes directly inside a node. -/
def Node.children : Node → List Node
  | .name _ => []
  | .expr value => value.children
  | .stmt step => step.children

/-- The nodes of a subroutine that are inside no other node. -/
def Subroutine.nodes (subroutine : Subroutine) : List Node :=
  .name subroutine.name :: (subroutine.params.map (fun item => .name item.name) ++
    (subroutine.locals.map (fun item => .name item.name) ++ subroutine.body.map .stmt))

/-- The nodes of a class that are inside no other node, in the order of the text. -/
def Class.nodes (cls : Class) : List Node :=
  .name cls.name :: (cls.vars.map (fun item => .name item.name) ++
    cls.subroutines.flatMap Subroutine.nodes)

/-- A class has its nodes and the nodes inside them. -/
inductive Class.Contains (cls : Class) : Node → Prop
  | top {node : Node} (member : node ∈ cls.nodes) : cls.Contains node
  | child {parent node : Node} (own : cls.Contains parent) (member : node ∈ parent.children) :
      cls.Contains node

/-! ## Nodes as pieces -/

/-- The piece that a node is. -/
def Node.piece : Node → Piece
  | .name label => .name label
  | .expr value => .expr value
  | .stmt step => .stmt step

/-- The pieces of a node. -/
def Node.form : Node → List Piece
  | .name _ => []
  | .expr value => value.form
  | .stmt step => step.form

/-- The nodes of a piece. -/
def Piece.nodes : Piece → List Node
  | .mark _ => []
  | .name label => [.name label]
  | .expr value => [.expr value]
  | .stmt step => [.stmt step]
  | .otherwise body => body.map .stmt

/-- The nodes of pieces. -/
def nodesOf (form : List Piece) : List Node := form.flatMap Piece.nodes

section Forms

variable {form : List Piece} {node parent : Node} {piece : Piece}

@[simp] theorem nodesOf_nil : nodesOf [] = [] := rfl

@[simp] theorem nodesOf_cons (first : Piece) (rest : List Piece) :
    nodesOf (first :: rest) = first.nodes ++ nodesOf rest := rfl

@[simp] theorem nodesOf_append (front back : List Piece) :
    nodesOf (front ++ back) = nodesOf front ++ nodesOf back := List.flatMap_append

@[simp] theorem nodesOf_parenthesized (inner : List Piece) :
    nodesOf (Piece.parenthesized inner) = nodesOf inner := by
  simp [Piece.parenthesized, Piece.nodes]

@[simp] theorem nodesOf_braced (inner : List Piece) :
    nodesOf (Piece.braced inner) = nodesOf inner := by
  simp [Piece.braced, Piece.nodes]

@[simp] theorem nodesOf_listed (items : List (List Piece)) :
    nodesOf (Piece.listed items) = items.flatMap nodesOf := by
  induction items with
  | nil => rfl
  | cons first rest ih =>
    cases rest with
    | nil => simp [Piece.listed]
    | cons second rest =>
      rw [Piece.listed_cons_cons, nodesOf_append, nodesOf_cons, ih, List.flatMap_cons]
      exact congrArg (_ ++ ·) (List.nil_append _)

@[simp] theorem nodesOf_body (body : List Stmt) : nodesOf (body.map .stmt) = body.map .stmt := by
  rw [nodesOf, List.flatMap_map, List.map_eq_flatMap]
  rfl

/-- The nodes of arguments. -/
@[simp] theorem nodesOf_arguments (args : List Expr) :
    nodesOf (argumentForm args) = args.map .expr := by
  rw [argumentForm, nodesOf_parenthesized, nodesOf_listed, List.flatMap_map, List.map_eq_flatMap]
  rfl

/-- The nodes of a call. -/
@[simp] theorem nodesOf_call (receiver : Option Name) (callee : Name) (args : List Expr) :
    nodesOf (callForm receiver callee args) = callNodes receiver callee args := by
  cases receiver <;> simp [callForm, callNodes, Piece.nodes]

/-- The nodes of the pieces of a node are its children. -/
theorem nodesOf_form (node : Node) : nodesOf node.form = node.children := by
  cases node with
  | name label => rfl
  | expr value =>
    change nodesOf value.form = value.children
    cases value with
    | boolean value span => cases value <;> rfl
    | call receiver callee args span => exact nodesOf_call receiver callee args
    | group inner span => simp [Expr.form, Expr.children, Piece.nodes]
    | _ => rfl
  | stmt step =>
    change nodesOf step.form = step.children
    cases step with
    | assign target value span => rfl
    | assignElement array index value span => rfl
    | branch condition thenBody elseBody span =>
      simp [Stmt.form, Stmt.children, blockForm, Piece.nodes]
    | loop condition body span => simp [Stmt.form, Stmt.children, blockForm, Piece.nodes]
    | call receiver callee args span => simp [Stmt.form, Stmt.children, Piece.nodes]
    | leave result span => cases result <;> rfl

/-- The nodes of declared names are the names. -/
theorem nodesOf_declaration (word : Keyword) (type : JackType) (names : List Name) :
    nodesOf (declarationForm word type names) = names.map .name := by
  have each : (names.map fun name => [Piece.name name]).flatMap nodesOf = names.map .name := by
    rw [List.flatMap_map, List.map_eq_flatMap]
    rfl
  simp [declarationForm, Piece.nodes, each]

/-- The nodes of consecutive values. -/
theorem nodesOf_consecutive {α : Type} {forms : List Piece → α → Prop} {nodes : α → List Node}
    (each : ∀ form value, forms form value → nodesOf form = nodes value) {values : List α}
    (consecutive : Consecutive forms form values) : nodesOf form = values.flatMap nodes := by
  induction consecutive with
  | nil => rfl
  | cons first _ ih => rw [nodesOf_append, each _ _ first, ih, List.flatMap_cons]

/-- The nodes of parameters are their names. -/
@[simp] theorem nodesOf_parameters (params : List Variable) :
    nodesOf (parametersForm params) = params.map fun item => .name item.name := by
  rw [parametersForm, nodesOf_parenthesized, nodesOf_listed, List.flatMap_map, List.map_eq_flatMap]
  rfl

/-- The nodes of the pieces of a subroutine. -/
theorem nodesOf_subroutine {subroutine : Subroutine} (own : Subroutine.Form form subroutine) :
    nodesOf form = subroutine.nodes := by
  obtain ⟨groups, locals, consecutive, flat, rfl⟩ := own
  have localNodes : nodesOf locals = subroutine.locals.map fun item => .name item.name := by
    rw [flat, List.map_flatten, ← List.flatMap_def]
    refine nodesOf_consecutive (fun form vars own => ?_) consecutive
    obtain ⟨type, names, rfl, rfl⟩ := own
    rw [nodesOf_declaration, List.map_map]
    rfl
  simp [Subroutine.nodes, Piece.nodes, localNodes]

/-- The nodes of the pieces of a class. -/
theorem nodesOf_class {cls : Class} (own : cls.Form form) : nodesOf form = cls.nodes := by
  obtain ⟨groups, vars, subroutines, consecutive, flat, separate, rfl⟩ := own
  have varNodes : nodesOf vars = cls.vars.map fun item => .name item.name := by
    rw [flat, List.map_flatten, ← List.flatMap_def]
    refine nodesOf_consecutive (fun form vars own => ?_) consecutive
    obtain ⟨storage, type, names, rfl, rfl⟩ := own
    rw [nodesOf_declaration, List.map_map]
    rfl
  have bodyNodes := nodesOf_consecutive (fun _ _ own => nodesOf_subroutine own) separate
  simp [Class.nodes, Piece.nodes, varNodes, bodyNodes]

/-- The nodes of pieces are pieces of them. -/
theorem holds_of_mem (member : node ∈ nodesOf form) : Holds node.piece form := by
  have body {steps : List Stmt} (inside : node ∈ steps.map .stmt) :
      Holds node.piece (steps.map .stmt) := by
    obtain ⟨step, own, rfl⟩ := List.mem_map.mp inside
    obtain ⟨front, back, rfl⟩ := List.append_of_mem own
    rw [List.map_append]
    exact Holds.append_right .here _
  induction form with
  | nil => contradiction
  | cons first rest ih =>
    rw [nodesOf_cons] at member
    rcases List.mem_append.mp member with own | later
    · cases first with
      | mark lexeme => contradiction
      | name label =>
        obtain rfl := List.mem_singleton.mp own
        exact .here
      | expr value =>
        obtain rfl := List.mem_singleton.mp own
        exact .here
      | stmt step =>
        obtain rfl := List.mem_singleton.mp own
        exact .here
      | otherwise steps => exact .otherwise (body own)
    · exact .behind (ih later)

/-- The pieces of a node that is a piece are pieces. -/
theorem Holds.inside (holds : Holds parent.piece form) (inside : Holds piece parent.form) :
    Holds piece form := by
  generalize same : parent.piece = own at holds
  induction holds with
  | here =>
    subst same
    cases parent with
    | name label => cases inside
    | expr value => exact .expr inside
    | stmt step => exact .stmt inside
  | expr _ ih => exact .expr ih
  | stmt _ ih => exact .stmt ih
  | otherwise _ ih => exact .otherwise ih
  | behind _ ih => exact .behind ih

/-- The nodes of a class are pieces of its forms. -/
theorem Class.Contains.holds {cls : Class} (own : cls.Form form) (contains : cls.Contains node) :
    Holds node.piece form := by
  induction contains with
  | top member => exact holds_of_mem (nodesOf_class own ▸ member)
  | child _ member ih => exact ih.inside (holds_of_mem (nodesOf_form _ ▸ member))

end Forms

/-! ## Spans -/

/-- Lexemes in the order of their text. -/
structure InOrder (tokens : List (Spanned Lexeme)) : Prop where
  /-- No lexeme ends in front of its start. -/
  proper : ∀ token ∈ tokens, token.span.start ≤ token.span.stop
  /-- Each lexeme is behind those in front of it. -/
  apart : tokens.Pairwise fun left right => left.span.stop ≤ right.span.start

/-- A span goes from the start of the first lexeme to the end of the last one. -/
def GoesOver (tokens : List (Spanned Lexeme)) (span : Span) : Prop :=
  ∃ first last, tokens.head? = some first ∧ tokens.getLast? = some last ∧
    span = ⟨first.span.start, last.span.stop⟩

/-- Nodes that stand one behind the other. -/
def Apart (nodes : List Node) : Prop :=
  nodes.Pairwise fun left right => left.span.stop ≤ right.span.start

/-- Nodes that stand on lexemes, one behind the other. -/
structure Occupy (tokens : List (Spanned Lexeme)) (nodes : List Node) : Prop where
  /-- Each is behind those in front of it. -/
  apart : Apart nodes
  /-- Each goes from one of the lexemes to one of them. -/
  within : ∀ node ∈ nodes, ∃ first ∈ tokens, ∃ last ∈ tokens,
    node.span = ⟨first.span.start, last.span.stop⟩

section Spans

variable {front own back tokens : List (Spanned Lexeme)} {left right span : Span}
variable {first last token : Spanned Lexeme} {nodes others : List Node}
variable {form : List Piece} {node : Node}

/-- A part of lexemes in order is in order. -/
theorem InOrder.sublist (ordered : InOrder tokens) (part : own.Sublist tokens) : InOrder own :=
  ⟨fun token member => ordered.proper token (part.subset member), ordered.apart.sublist part⟩

/-- Lexemes in order are between the first and the last one. -/
theorem InOrder.between (ordered : InOrder tokens) (starts : tokens.head? = some first)
    (ends : tokens.getLast? = some last) (member : token ∈ tokens) :
    first.span.start ≤ token.span.start ∧ token.span.stop ≤ last.span.stop := by
  obtain ⟨rest, rfl⟩ := List.head?_eq_some_iff.mp starts
  constructor
  · rcases List.mem_cons.mp member with rfl | behind
    · exact Nat.le_refl _
    · exact Nat.le_trans (ordered.proper first List.mem_cons_self)
        ((List.pairwise_cons.mp ordered.apart).1 token behind)
  · obtain ⟨front, same⟩ := List.getLast?_eq_some_iff.mp ends
    rw [same] at ordered member
    rcases List.mem_append.mp member with inFront | isLast
    · exact Nat.le_trans ((List.pairwise_append.mp ordered.apart).2.2 token inFront last
        List.mem_cons_self) (ordered.proper last (List.mem_append_right _ List.mem_cons_self))
    · obtain rfl := List.mem_singleton.mp isLast
      exact Nat.le_refl _

/-- The last place is that of the last lexeme. -/
theorem exists_lastPlace (first : Spanned Lexeme) (rest : List (Spanned Lexeme)) :
    ∃ last, (first :: rest).getLast? = some last ∧ lastPlace first.span rest = last.span := by
  induction rest generalizing first with
  | nil => exact ⟨first, rfl, rfl⟩
  | cons second rest ih =>
    obtain ⟨last, ends, place⟩ := ih second
    exact ⟨last, by rw [List.getLast?_cons_cons, ends], place⟩

/-- The span of lexemes in order goes over them. -/
theorem goesOver_spanOf (ordered : InOrder tokens) (some : tokens ≠ []) :
    GoesOver tokens (spanOf tokens) := by
  cases tokens with
  | nil => contradiction
  | cons first rest =>
    obtain ⟨last, ends, place⟩ := exists_lastPlace first rest
    have member := List.mem_of_getLast? ends
    have start := (ordered.between rfl ends member).1
    have stop := (ordered.between rfl ends List.mem_cons_self).2
    refine ⟨first, last, rfl, ends, ?_⟩
    rw [spanOf, place, Span.merge, Nat.min_eq_left start, Nat.max_eq_right stop]

/-- Spans over the first and the last of lexemes in order merge to a span over all. -/
theorem GoesOver.merge (ordered : InOrder (front ++ (own ++ back))) (starts : GoesOver front left)
    (ends : GoesOver back right) : GoesOver (front ++ (own ++ back)) (left.merge right) := by
  obtain ⟨first, inner, headFront, lastFront, rfl⟩ := starts
  obtain ⟨second, last, headBack, lastBack, rfl⟩ := ends
  have head : (front ++ (own ++ back)).head? = some first := by
    rw [List.head?_append, headFront]
    rfl
  have final : (front ++ (own ++ back)).getLast? = some last := by
    rw [List.getLast?_append, List.getLast?_append, lastBack]
    rfl
  have start := (ordered.between head final (List.mem_append_right _
    (List.mem_append_right _ (List.mem_of_mem_head? headBack)))).1
  have stop := (ordered.between head final
    (List.mem_append_left _ (List.mem_of_getLast? lastFront))).2
  refine ⟨first, last, head, final, ?_⟩
  rw [Span.merge, Nat.min_eq_left start, Nat.max_eq_right stop]

/-- Lexemes that write an expression. -/
theorem Writes.expr_inv {expr : Expr} (writes : Writes own [.expr expr]) :
    Writes own expr.form ∧ expr.Spans own := by
  cases writes with
  | expr inside span rest =>
    cases rest
    rw [List.append_nil]
    exact ⟨inside, span⟩

/-- Lexemes that write a statement. -/
theorem Writes.stmt_inv {stmt : Stmt} (writes : Writes own [.stmt stmt]) :
    Writes own stmt.form ∧ stmt.span = spanOf own := by
  cases writes with
  | stmt inside span rest =>
    cases rest
    rw [List.append_nil]
    exact ⟨inside, span⟩

/-- Lexemes that write a name. -/
theorem Writes.name_inv {name : Name} (writes : Writes own [.name name]) :
    own = [nameToken name] := by
  cases writes with
  | name label rest =>
    cases rest
    rfl

/-- The first of several pieces is written by the first lexemes. -/
theorem Writes.uncons {first : Piece} {rest : List Piece} (writes : Writes own (first :: rest)) :
    ∃ front back, own = front ++ back ∧ Writes front [first] ∧ Writes back rest := by
  cases writes with
  | mark token others => exact ⟨[token], _, rfl, .mark token .nil, others⟩
  | name label others => exact ⟨[nameToken label], _, rfl, .name label .nil, others⟩
  | expr inside span others => exact ⟨_, _, rfl, writes_expr inside span, others⟩
  | stmt inside span others => exact ⟨_, _, rfl, writes_stmt inside span, others⟩
  | omitted others => exact ⟨[], _, rfl, .omitted .nil, others⟩
  | otherwise inside others =>
    have single := Writes.otherwise inside .nil
    rw [List.append_nil] at single
    exact ⟨_, _, rfl, single, others⟩

/-- A lexeme is written by itself. -/
theorem Writes.mark_inv {lexeme : Lexeme} {rest : List Piece}
    (writes : Writes own (.mark lexeme :: rest)) :
    ∃ token back, own = token :: back ∧ token.node = lexeme ∧ Writes back rest := by
  cases writes with
  | mark token others => exact ⟨token, _, rfl, rfl, others⟩

/-- A lexeme is not written by none. -/
theorem Writes.mark_ne_nil {lexeme : Lexeme} {rest : List Piece}
    (writes : Writes own (.mark lexeme :: rest)) : own ≠ [] := by
  obtain ⟨token, back, rfl, -⟩ := writes.mark_inv
  exact List.cons_ne_nil _ _

/-- A name is not written by no lexeme. -/
theorem Writes.name_ne_nil {name : Name} {rest : List Piece}
    (writes : Writes own (.name name :: rest)) : own ≠ [] := by
  cases writes
  exact List.cons_ne_nil _ _

/-- The span of an expression on lexemes in order goes over them. -/
theorem goesOver_of_spans (expr : Expr) {own : List (Spanned Lexeme)} (ordered : InOrder own)
    (writes : Writes own expr.form) (spans : expr.Spans own) : GoesOver own expr.span := by
  have single (same : expr.span = spanOf own) (some : own ≠ []) : GoesOver own expr.span :=
    same ▸ goesOver_spanOf ordered some
  cases expr with
  | binary op left right span =>
    obtain ⟨front, back, rfl, leftWrites, others⟩ := writes.uncons
    obtain ⟨mark, behind, rfl, -, rightWrites⟩ := others.uncons
    obtain ⟨leftInside, leftSpans⟩ := leftWrites.expr_inv
    obtain ⟨rightInside, rightSpans⟩ := rightWrites.expr_inv
    obtain rfl : span = left.span.merge right.span := spans
    have leftOrdered := ordered.sublist (List.sublist_append_left front _)
    have rightOrdered := (ordered.sublist (List.sublist_append_right front _)).sublist
      (List.sublist_append_right mark behind)
    exact GoesOver.merge ordered (goesOver_of_spans left leftOrdered leftInside leftSpans)
      (goesOver_of_spans right rightOrdered rightInside rightSpans)
  | «variable» name span => exact single spans writes.name_ne_nil
  | element array index span => exact single spans writes.name_ne_nil
  | call receiver callee args span => cases receiver <;> exact single spans writes.name_ne_nil
  | boolean value span => cases value <;> exact single spans writes.mark_ne_nil
  | unary op operand span => exact single spans writes.mark_ne_nil
  | integer value span => exact single spans writes.mark_ne_nil
  | string content span => exact single spans writes.mark_ne_nil
  | null span => exact single spans writes.mark_ne_nil
  | this span => exact single spans writes.mark_ne_nil
  | group inner span => exact single spans writes.mark_ne_nil

/-- The span of a node goes over the lexemes that write it. -/
theorem goesOver_of_writes (ordered : InOrder own) (writes : Writes own [node.piece]) :
    GoesOver own node.span := by
  cases node with
  | name label =>
    obtain rfl := writes.name_inv
    exact ⟨nameToken label, nameToken label, rfl, rfl, rfl⟩
  | expr value =>
    obtain ⟨inside, spans⟩ := writes.expr_inv
    exact goesOver_of_spans value ordered inside spans
  | stmt step =>
    obtain ⟨inside, span⟩ := writes.stmt_inv
    change GoesOver own step.span
    rw [span]
    refine goesOver_spanOf ordered ?_
    cases step with
    | leave result span => cases result <;> exact inside.mark_ne_nil
    | _ => exact inside.mark_ne_nil

/-- What stands on lexemes stands on them with others behind. -/
theorem Occupy.append (ordered : InOrder (front ++ back)) (inFront : Occupy front nodes)
    (behind : Occupy back others) : Occupy (front ++ back) (nodes ++ others) := by
  constructor
  · refine List.pairwise_append.mpr ⟨inFront.apart, behind.apart, fun left own right other => ?_⟩
    obtain ⟨_, _, last, inner, place⟩ := inFront.within left own
    obtain ⟨first, outer, _, _, next⟩ := behind.within right other
    rw [place, next]
    exact (List.pairwise_append.mp ordered.apart).2.2 last inner first outer
  · refine List.forall_mem_append.mpr ⟨fun node member => ?_, fun node member => ?_⟩
    · obtain ⟨first, inner, last, outer, place⟩ := inFront.within node member
      exact ⟨first, List.mem_append_left _ inner, last, List.mem_append_left _ outer, place⟩
    · obtain ⟨first, inner, last, outer, place⟩ := behind.within node member
      exact ⟨first, List.mem_append_right _ inner, last, List.mem_append_right _ outer, place⟩

/-- One node stands on the lexemes that its span goes over. -/
theorem Occupy.single (extent : GoesOver own node.span) : Occupy own [node] := by
  obtain ⟨first, last, starts, ends, place⟩ := extent
  exact ⟨List.pairwise_singleton _ _, List.forall_mem_singleton.mpr
    ⟨first, List.mem_of_mem_head? starts, last, List.mem_of_getLast? ends, place⟩⟩

/-- Nodes that are written by lexemes in order stand on them. -/
theorem Writes.occupy (writes : Writes tokens form) (ordered : InOrder tokens) :
    Occupy tokens (nodesOf form) := by
  have behind {front back : List (Spanned Lexeme)} (both : InOrder (front ++ back)) :
      InOrder back := both.sublist (List.sublist_append_right front back)
  have inFront {front back : List (Spanned Lexeme)} (both : InOrder (front ++ back)) :
      InOrder front := both.sublist (List.sublist_append_left front back)
  have none (tokens : List (Spanned Lexeme)) : Occupy tokens [] :=
    ⟨.nil, fun _ member => by contradiction⟩
  induction writes with
  | nil => exact none []
  | @mark token taken form rest ih =>
    have split : InOrder ([token] ++ taken) := ordered
    exact (none [token]).append split (ih (behind split))
  | @name label taken form rest ih =>
    have split : InOrder ([nameToken label] ++ taken) := ordered
    have extent : GoesOver [nameToken label] (Node.name label).span :=
      goesOver_of_writes (inFront split) (writes_name label)
    exact (Occupy.single extent).append split (ih (behind split))
  | @expr value own taken form inside span rest _ ih =>
    have extent : GoesOver own (Node.expr value).span :=
      goesOver_of_spans value (inFront ordered) inside span
    exact (Occupy.single extent).append ordered (ih (behind ordered))
  | @stmt step own taken form inside span rest _ ih =>
    have extent : GoesOver own (Node.stmt step).span :=
      goesOver_of_writes (inFront ordered) (writes_stmt inside span)
    exact (Occupy.single extent).append ordered (ih (behind ordered))
  | omitted rest ih => exact ih ordered
  | @otherwise body own taken form inside rest ihInside ih =>
    have first := ihInside (inFront ordered)
    rw [nodesOf_cons, blockForm, nodesOf_braced, nodesOf_body] at first
    exact first.append ordered (ih (behind ordered))

end Spans

/-! ## Lexemes -/

/-- The lexemes of a piece; an empty else branch has none. -/
def Piece.lexemes : Piece → List Lexeme
  | .mark found => [found]
  | .name label => [.identifier label.node]
  | .expr value => value.lexemes
  | .stmt step => step.lexemes
  | .otherwise body =>
    if body.isEmpty then [] else .keyword .else :: Jack.braced (Stmt.bodyLexemes body)

/-- The lexemes of pieces. -/
def lexemesOf (form : List Piece) : List Lexeme := form.flatMap Piece.lexemes

/-- Whether a piece holds no statement. -/
def Piece.IsFlat : Piece → Prop
  | .mark _ | .name _ | .expr _ => True
  | .stmt _ | .otherwise _ => False

/-- Pieces without statements. -/
def Flat (form : List Piece) : Prop := ∀ piece ∈ form, piece.IsFlat

section Lexemes

variable {tokens : List (Spanned Lexeme)} {form : List Piece}

@[simp] theorem lexemesOf_nil : lexemesOf [] = [] := rfl

@[simp] theorem lexemesOf_cons (first : Piece) (rest : List Piece) :
    lexemesOf (first :: rest) = first.lexemes ++ lexemesOf rest := rfl

@[simp] theorem lexemesOf_append (front back : List Piece) :
    lexemesOf (front ++ back) = lexemesOf front ++ lexemesOf back := List.flatMap_append

@[simp] theorem lexemesOf_parenthesized (inner : List Piece) :
    lexemesOf (Piece.parenthesized inner) = parenthesized (lexemesOf inner) := by
  simp [Piece.parenthesized, Piece.lexemes, parenthesized]

@[simp] theorem lexemesOf_braced (inner : List Piece) :
    lexemesOf (Piece.braced inner) = braced (lexemesOf inner) := by
  simp [Piece.braced, Piece.lexemes, braced]

@[simp] theorem lexemesOf_block (body : List Stmt) :
    lexemesOf (blockForm body) = braced (Stmt.bodyLexemes body) := by
  rw [blockForm, lexemesOf_braced, lexemesOf, List.flatMap_map, Stmt.bodyLexemes_eq_flatMap]
  rfl

/-- The lexemes of items with commas between them. -/
theorem lexemesOf_listed (items : List (List Piece)) :
    lexemesOf (Piece.listed items) = listed (items.map lexemesOf) := by
  induction items with
  | nil => rfl
  | cons first rest ih =>
    cases rest with
    | nil => simp [Piece.listed, listed]
    | cons second rest =>
      rw [Piece.listed_cons_cons, lexemesOf_append, lexemesOf_cons, ih, listed, listed,
        List.map_cons, List.map_cons, List.map_cons, List.intercalate_cons_cons]
      simp [Piece.lexemes]

/-- The lexemes of a call. -/
@[simp] theorem lexemesOf_call (receiver : Option Name) (callee : Name) (args : List Expr) :
    lexemesOf (callForm receiver callee args) =
      callLexemes receiver callee (args.map Expr.lexemes) := by
  have each : args.map (lexemesOf ∘ fun arg => [Piece.expr arg]) = args.map Expr.lexemes :=
    List.map_congr_left fun arg _ => List.append_nil _
  cases receiver <;>
    simp [callForm, callLexemes, argumentForm, lexemesOf_listed, Piece.lexemes, parenthesized, each]

/-- The lexemes of the pieces of an expression are its lexemes. -/
theorem lexemesOf_expr (expr : Expr) : lexemesOf expr.form = expr.lexemes := by
  cases expr with
  | boolean value span => cases value <;> rfl
  | call receiver callee args span =>
    rw [Expr.form, lexemesOf_call, Expr.lexemes, Expr.allLexemes_eq_map]
  | _ => simp [Expr.form, Expr.lexemes, Piece.lexemes, parenthesized]

/-- The lexemes of the pieces of a statement are its lexemes. -/
theorem lexemesOf_stmt (stmt : Stmt) : lexemesOf stmt.form = stmt.lexemes := by
  cases stmt with
  | leave result span => cases result <;> simp [Stmt.form, Stmt.lexemes, Piece.lexemes]
  | _ => simp [Stmt.form, Stmt.lexemes, Piece.lexemes]

@[simp] theorem flat_nil : Flat [] := fun _ member => by contradiction

@[simp] theorem flat_cons {first : Piece} {rest : List Piece} :
    Flat (first :: rest) ↔ first.IsFlat ∧ Flat rest := List.forall_mem_cons

@[simp] theorem flat_append {front back : List Piece} :
    Flat (front ++ back) ↔ Flat front ∧ Flat back := List.forall_mem_append

/-- The arguments of a call have no statement in them. -/
@[simp] theorem flat_arguments (args : List Expr) : Flat (argumentForm args) := by
  have list : Flat (Piece.listed (args.map fun arg => [.expr arg])) := by
    induction args with
    | nil => exact flat_nil
    | cons first rest ih =>
      cases rest with
      | nil => simp [Piece.listed, Piece.IsFlat]
      | cons second rest => exact flat_cons.mpr ⟨trivial, flat_cons.mpr ⟨trivial, ih⟩⟩
  simp [argumentForm, Piece.parenthesized, Piece.IsFlat, list]

/-- An expression has no statement in it. -/
theorem flat_expr (expr : Expr) : Flat expr.form := by
  cases expr with
  | boolean value span => cases value <;> simp [Expr.form, Piece.IsFlat]
  | call receiver callee args span => cases receiver <;> simp [Expr.form, callForm, Piece.IsFlat]
  | _ => simp [Expr.form, Piece.parenthesized, Piece.IsFlat]

/-- The lexemes that write pieces without statements are those of the pieces. -/
theorem Writes.nodes_eq (writes : Writes tokens form) (flat : Flat form) :
    tokens.map Spanned.node = lexemesOf form := by
  induction writes with
  | nil => rfl
  | mark token rest ih => exact congrArg (token.node :: ·) (ih (flat_cons.mp flat).2)
  | name label rest ih => exact congrArg (.identifier label.node :: ·) (ih (flat_cons.mp flat).2)
  | @expr value own taken form inside span rest ihInside ih =>
    rw [List.map_append, ihInside (flat_expr value), ih (flat_cons.mp flat).2, lexemesOf_cons,
      lexemesOf_expr]
    rfl
  | stmt inside span rest ihInside ih => exact (flat_cons.mp flat).1.elim
  | omitted rest ih => exact (flat_cons.mp flat).1.elim
  | otherwise inside rest ihInside ih => exact (flat_cons.mp flat).1.elim

/-- The lexemes that write an expression are those of the expression. -/
theorem Writes.expr_nodes {expr : Expr} (writes : Writes tokens expr.form) :
    tokens.map Spanned.node = expr.lexemes :=
  (writes.nodes_eq (flat_expr expr)).trans (lexemesOf_expr expr)

/-- The lexemes that write pieces are those of the pieces, but for empty else branches. -/
theorem Writes.respelled (writes : Writes tokens form) :
    Respelled (tokens.map Spanned.node) (lexemesOf form) := by
  induction writes with
  | nil => exact .refl []
  | mark token rest ih => exact ih.cons token.node
  | name label rest ih => exact ih.cons (.identifier label.node)
  | expr inside span rest ihInside ih =>
    rw [List.map_append, lexemesOf_cons]
    rw [lexemesOf_expr] at ihInside
    exact ihInside.append ih
  | stmt inside span rest ihInside ih =>
    rw [List.map_append, lexemesOf_cons]
    rw [lexemesOf_stmt] at ihInside
    exact ihInside.append ih
  | omitted rest ih => exact ih
  | @otherwise body own taken form inside rest ihInside ih =>
    rw [List.map_append, lexemesOf_cons]
    rw [lexemesOf_cons, lexemesOf_block] at ihInside
    refine Respelled.append ?_ ih
    cases body with
    | nil => exact ihInside.trans respelled_emptyElse
    | cons step rest => exact ihInside

end Lexemes

end JackToolchain.Jack
