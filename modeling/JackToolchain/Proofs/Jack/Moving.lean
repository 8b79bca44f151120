import JackToolchain.Proofs.Jack.Chains
import JackToolchain.Proofs.Jack.Nodes
import JackToolchain.Proofs.Jack.Slicing

/-!
# Moved expressions

The places in an expression are those of the lexemes that write it. So the same expression, written
by the same lexemes somewhere else, has the same places but for the distance.
-/
namespace JackToolchain.Jack

/-! ## Changed places -/

/-- A name with another place. -/
def changedName (change : Span → Span) (name : Name) : Name := ⟨name.node, change name.span⟩

mutual

/-- An expression with other places. -/
def Expr.mapSpans (change : Span → Span) : Expr → Expr
  | .binary op left right span =>
    .binary op (left.mapSpans change) (right.mapSpans change) (change span)
  | .unary op operand span => .unary op (operand.mapSpans change) (change span)
  | .integer value span => .integer value (change span)
  | .string content span => .string content (change span)
  | .boolean value span => .boolean value (change span)
  | .null span => .null (change span)
  | .this span => .this (change span)
  | .variable name span => .variable name (change span)
  | .element array index span =>
    .element (changedName change array) (index.mapSpans change) (change span)
  | .call receiver callee args span =>
    .call (receiver.map (changedName change)) (changedName change callee)
      (Expr.allMapSpans change args) (change span)
  | .group inner span => .group (inner.mapSpans change) (change span)

/-- Expressions with other places. -/
def Expr.allMapSpans (change : Span → Span) : List Expr → List Expr
  | [] => []
  | expr :: rest => expr.mapSpans change :: Expr.allMapSpans change rest

end

/-- An expression that is moved away from the front. -/
def Expr.shift (distance : Nat) (expr : Expr) : Expr := expr.mapSpans (Span.shift distance)

/-- A piece with other places; those in statements are not looked at. -/
def Piece.mapSpans (change : Span → Span) : Piece → Piece
  | .name label => .name (changedName change label)
  | .expr value => .expr (value.mapSpans change)
  | other => other

section Places

variable {change : Span → Span}

mutual

/-- The places of an expression without places say nothing. -/
theorem Expr.mapSpans_nowhere (expr : Expr) :
    expr.mapSpans (fun _ => .nowhere) = expr.unplaced := by
  cases expr with
  | binary op left right span =>
    rw [Expr.mapSpans, left.mapSpans_nowhere, right.mapSpans_nowhere, Expr.unplaced]
  | unary op operand span => rw [Expr.mapSpans, operand.mapSpans_nowhere, Expr.unplaced]
  | element array index span =>
    rw [Expr.mapSpans, index.mapSpans_nowhere, Expr.unplaced]
    rfl
  | group inner span => rw [Expr.mapSpans, inner.mapSpans_nowhere, Expr.unplaced]
  | call receiver callee args span =>
    rw [Expr.mapSpans, Expr.allMapSpans_nowhere args, Expr.unplaced]
    rfl
  | _ => rfl

/-- The places of expressions without places say nothing. -/
theorem Expr.allMapSpans_nowhere (exprs : List Expr) :
    Expr.allMapSpans (fun _ => .nowhere) exprs = Expr.allUnplaced exprs := by
  cases exprs with
  | nil => rfl
  | cons expr rest =>
    rw [Expr.allMapSpans, expr.mapSpans_nowhere, Expr.allMapSpans_nowhere rest, Expr.allUnplaced]

end

mutual

/-- An expression has its lexemes wherever it stands. -/
theorem Expr.lexemes_mapSpans (expr : Expr) : (expr.mapSpans change).lexemes = expr.lexemes := by
  cases expr with
  | binary op left right span =>
    rw [Expr.mapSpans, Expr.lexemes, left.lexemes_mapSpans, right.lexemes_mapSpans, Expr.lexemes]
  | unary op operand span =>
    rw [Expr.mapSpans, Expr.lexemes, operand.lexemes_mapSpans, Expr.lexemes]
  | element array index span =>
    rw [Expr.mapSpans, Expr.lexemes, index.lexemes_mapSpans, Expr.lexemes]
    rfl
  | group inner span => rw [Expr.mapSpans, Expr.lexemes, inner.lexemes_mapSpans, Expr.lexemes]
  | call receiver callee args span =>
    rw [Expr.mapSpans, Expr.lexemes, Expr.allLexemes_mapSpans args, Expr.lexemes]
    cases receiver <;> rfl
  | boolean value span => cases value <;> rfl
  | _ => rfl

/-- Expressions have their lexemes wherever they stand. -/
theorem Expr.allLexemes_mapSpans (exprs : List Expr) :
    Expr.allLexemes (Expr.allMapSpans change exprs) = Expr.allLexemes exprs := by
  cases exprs with
  | nil => rfl
  | cons expr rest =>
    rw [Expr.allMapSpans, Expr.allLexemes, expr.lexemes_mapSpans, Expr.allLexemes_mapSpans rest,
      Expr.allLexemes]

end

/-- The arguments of a call with other places. -/
theorem argumentForm_mapSpans (args : List Expr) :
    argumentForm (Expr.allMapSpans change args) =
      (argumentForm args).map (Piece.mapSpans change) := by
  have list : Piece.listed ((Expr.allMapSpans change args).map fun arg => [Piece.expr arg]) =
      (Piece.listed (args.map fun arg => [.expr arg])).map (Piece.mapSpans change) := by
    induction args with
    | nil => rfl
    | cons first rest ih =>
      cases rest with
      | nil => rfl
      | cons second rest =>
        exact congrArg (fun rest =>
          Piece.expr (first.mapSpans change) :: .mark (.symbol .comma) :: rest) ih
  simp [argumentForm, Piece.parenthesized, list, Piece.mapSpans]

/-- The pieces of an expression with other places. -/
theorem Expr.form_mapSpans (expr : Expr) :
    (expr.mapSpans change).form = expr.form.map (Piece.mapSpans change) := by
  cases expr with
  | boolean value span => cases value <;> rfl
  | call receiver callee args span =>
    cases receiver <;>
      simp [Expr.mapSpans, Expr.form, callForm, argumentForm_mapSpans, Piece.mapSpans]
  | _ => rfl

mutual

/-- Without places, an expression is the same wherever it stands. -/
theorem Expr.unplaced_mapSpans (expr : Expr) : (expr.mapSpans change).unplaced = expr.unplaced := by
  cases expr with
  | binary op left right span =>
    rw [Expr.mapSpans, Expr.unplaced, left.unplaced_mapSpans, right.unplaced_mapSpans,
      Expr.unplaced]
  | unary op operand span =>
    rw [Expr.mapSpans, Expr.unplaced, operand.unplaced_mapSpans, Expr.unplaced]
  | element array index span =>
    rw [Expr.mapSpans, Expr.unplaced, index.unplaced_mapSpans, Expr.unplaced]
    rfl
  | group inner span => rw [Expr.mapSpans, Expr.unplaced, inner.unplaced_mapSpans, Expr.unplaced]
  | call receiver callee args span =>
    rw [Expr.mapSpans, Expr.unplaced, Expr.allUnplaced_mapSpans args, Expr.unplaced]
    cases receiver <;> rfl
  | _ => rfl

/-- Without places, expressions are the same wherever they stand. -/
theorem Expr.allUnplaced_mapSpans (exprs : List Expr) :
    Expr.allUnplaced (Expr.allMapSpans change exprs) = Expr.allUnplaced exprs := by
  cases exprs with
  | nil => rfl
  | cons expr rest =>
    rw [Expr.allMapSpans, Expr.allUnplaced, expr.unplaced_mapSpans, Expr.allUnplaced_mapSpans rest,
      Expr.allUnplaced]

end

/-- The span of an expression with other places. -/
theorem Expr.span_mapSpans (expr : Expr) : (expr.mapSpans change).span = change expr.span := by
  cases expr <;> rfl

end Places

/-! ## Moved lexemes -/

section Moving

variable {distance : Nat} {own taken : List (Spanned Lexeme)} {form other : List Piece}
variable {first second : Expr}

/-- Spans that are moved by the same distance merge to the merged span, moved by it. -/
theorem merge_shift (left right : Span) :
    (left.shift distance).merge (right.shift distance) = (left.merge right).shift distance := by
  simp only [Span.merge, Span.shift, Nat.add_min_add_left, Nat.add_max_add_left]

/-- The last place of moved lexemes is moved with them. -/
theorem lastPlace_shift (last : Span) :
    lastPlace (last.shift distance) (taken.map (Spanned.shift distance)) =
      (lastPlace last taken).shift distance := by
  induction taken generalizing last with
  | nil => rfl
  | cons token rest ih => exact ih token.span

/-- The span of moved lexemes is moved with them. -/
theorem spanOf_shift (some : own ≠ []) :
    spanOf (own.map (Spanned.shift distance)) = (spanOf own).shift distance := by
  cases own with
  | nil => contradiction
  | cons token rest =>
    rw [List.map_cons, spanOf, spanOf, ← merge_shift, ← lastPlace_shift]
    rfl

/-- The lexemes of an expression are some. -/
theorem Writes.ne_nil {expr : Expr} (writes : Writes own expr.form) : own ≠ [] := by
  rintro rfl
  obtain ⟨first, starts, -⟩ := expr.head?_lexemes
  rw [← writes.expr_nodes] at starts
  contradiction

/-- A moved expression has the span of the moved lexemes. -/
theorem Expr.Spans.shift {expr : Expr} (spans : expr.Spans own) (some : own ≠ []) :
    (expr.shift distance).Spans (own.map (Spanned.shift distance)) := by
  cases expr with
  | binary op left right span =>
    obtain rfl : span = left.span.merge right.span := spans
    change (left.span.merge right.span).shift distance =
      (left.shift distance).span.merge (right.shift distance).span
    rw [Expr.shift, Expr.shift, left.span_mapSpans, right.span_mapSpans, merge_shift]
  | _ => exact (congrArg (Span.shift distance) spans).trans (spanOf_shift some).symm

/-- The arguments of calls are the same if their nodes are. -/
theorem map_expr_inj {args others : List Expr} (same : args.map Node.expr = others.map .expr) :
    args = others :=
  List.map_injective_iff.mpr (fun _ _ same => Node.expr.inj same) same

/-- An expression is known from what it is without places, the nodes inside it and the lexemes that
its span is of. -/
theorem Expr.eq_of_children (same : first.unplaced = second.unplaced)
    (children : first.children = second.children) (spans : first.Spans own)
    (otherSpans : second.Spans own) : first = second := by
  -- Expressions of two kinds are different without places.
  cases first <;> cases second <;> simp [Expr.unplaced] at same
  case call.call receiver callee args place other callee' others place' =>
    have both : receiver = other ∧ callee = callee' ∧ args = others := by
      cases receiver <;> cases other <;> simp_all [Expr.children, callNodes]
      · exact map_expr_inj children.2
      · exact map_expr_inj children.2.2
    simp_all [Expr.Spans, Expr.span]
  all_goals simp_all [Expr.children, Expr.Spans, Expr.span]

/-- Pieces without statements have the places of the lexemes that write them: if moved lexemes write
pieces that are the same without places, these are the pieces moved by that distance. -/
theorem Writes.moved (writes : Writes taken form) (flat : Flat form)
    (moved : Writes (taken.map (Spanned.shift distance)) other)
    (same : other.map (Piece.mapSpans fun _ => .nowhere) =
      form.map (Piece.mapSpans fun _ => .nowhere)) :
    other = form.map (Piece.mapSpans (Span.shift distance)) := by
  induction writes generalizing other with
  | nil => exact List.map_eq_nil_iff.mp same
  | @mark token taken form rest ih =>
    obtain ⟨piece, others, rfl, first, restSame⟩ := List.map_eq_cons_iff.mp same
    obtain rfl : piece = .mark token.node := by cases piece <;> simp_all [Piece.mapSpans]
    obtain ⟨own, back, split, -, behind⟩ := moved.mark_inv
    obtain ⟨-, rfl⟩ := List.cons.inj split
    exact congrArg (Piece.mark token.node :: ·) (ih (flat_cons.mp flat).2 behind restSame)
  | @name label taken form rest ih =>
    obtain ⟨piece, others, rfl, first, restSame⟩ := List.map_eq_cons_iff.mp same
    obtain ⟨own, rfl⟩ : ∃ own, piece = .name own := by cases piece <;> simp_all [Piece.mapSpans]
    obtain ⟨front, back, split, here, behind⟩ := moved.uncons
    obtain rfl := here.name_inv
    obtain ⟨token, rfl⟩ := List.cons.inj split
    obtain rfl : own = changedName (Span.shift distance) label := by
      obtain ⟨node, span⟩ := Spanned.mk.inj token
      exact congrArg₂ Spanned.mk (Lexeme.identifier.inj node).symm span.symm
    exact congrArg (Piece.name _ :: ·) (ih (flat_cons.mp flat).2 behind restSame)
  | @expr value own taken form inside span rest ihInside ih =>
    obtain ⟨piece, others, rfl, first, restSame⟩ := List.map_eq_cons_iff.mp same
    obtain ⟨found, rfl⟩ : ∃ found, piece = .expr found := by
      cases piece <;> simp_all [Piece.mapSpans]
    obtain ⟨front, back, split, here, behind⟩ := moved.uncons
    obtain ⟨foundInside, foundSpans⟩ := here.expr_inv
    have unplaced : found.mapSpans (fun _ => .nowhere) = value.mapSpans fun _ => .nowhere :=
      Piece.expr.inj first
    -- An expression has as many lexemes wherever it stands.
    have length : (own.map (Spanned.shift distance)).length = front.length := by
      have lexemes := congrArg Expr.lexemes unplaced
      rw [found.lexemes_mapSpans, value.lexemes_mapSpans, ← foundInside.expr_nodes,
        ← inside.expr_nodes] at lexemes
      simpa using (congrArg List.length lexemes).symm
    rw [List.map_append] at split
    obtain ⟨rfl, rfl⟩ := List.append_inj split length
    have forms := ihInside (flat_expr value) foundInside (by
      rw [← Expr.form_mapSpans, ← Expr.form_mapSpans, unplaced])
    have whole : found = value.shift distance := by
      refine Expr.eq_of_children ?_ ?_ foundSpans (span.shift inside.ne_nil)
      · rw [Expr.shift, Expr.unplaced_mapSpans, ← Expr.mapSpans_nowhere, unplaced,
          Expr.mapSpans_nowhere]
      · rw [← Expr.form_mapSpans] at forms
        exact (nodesOf_form (.expr found)).symm.trans ((congrArg nodesOf forms).trans
          (nodesOf_form (.expr (value.shift distance))))
    rw [whole]
    exact congrArg (Piece.expr _ :: ·) (ih (flat_cons.mp flat).2 behind restSame)
  | stmt inside span rest ihInside ih => exact (flat_cons.mp flat).1.elim
  | omitted rest ih => exact (flat_cons.mp flat).1.elim
  | otherwise inside rest ihInside ih => exact (flat_cons.mp flat).1.elim

/-- An expression that is the same without places and is written by moved lexemes is moved by that
distance. -/
theorem Writes.expr_moved (writes : Writes own [.expr first])
    (moved : Writes (own.map (Spanned.shift distance)) [.expr second])
    (same : first.unplaced = second.unplaced) : first.shift distance = second := by
  have flat : Flat [.expr first] := flat_cons.mpr ⟨trivial, flat_nil⟩
  have unplaced : [Piece.expr second].map (Piece.mapSpans fun _ => .nowhere) =
      [.expr first].map (Piece.mapSpans fun _ => .nowhere) := by
    simp only [List.map_cons, List.map_nil, Piece.mapSpans, Expr.mapSpans_nowhere, same]
  exact (Piece.expr.inj (List.cons.inj (writes.moved flat moved unplaced)).1).symm

end Moving

end JackToolchain.Jack
