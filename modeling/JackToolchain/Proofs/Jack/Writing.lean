import JackToolchain.Jack.Grammar
import Mathlib.Logic.Relation

/-!
# Written classes

The other side of the grammar: the lexemes that write a class, one declaration for each name and no
else for an empty else branch. A source text may write the same class otherwise only by listing
several names in one declaration and by empty else blocks; `Respelled` takes both out of a list of
lexemes. The lexemes do not say how operators group unless the tree is `Grouped`: where an operand
would otherwise be taken apart, there are parentheses.
-/
namespace JackToolchain.Jack

/-! ## Lexemes -/

/-- The lexeme that writes a type. -/
def JackType.lexeme : JackType → Lexeme
  | .int => .keyword .int
  | .char => .keyword .char
  | .boolean => .keyword .boolean
  | .void => .keyword .void
  | .object className => .identifier className

/-- The reserved word that declares a kind of class variable. -/
def ClassStorage.keyword : ClassStorage → Keyword
  | .static => .static
  | .field => .field

/-- Items with commas between them. -/
def listed (items : List (List Lexeme)) : List Lexeme := [Lexeme.symbol .comma].intercalate items

/-- A call with the lexemes of its arguments. -/
def callLexemes (receiver : Option Name) (callee : Name) (args : List (List Lexeme)) :
    List Lexeme :=
  receiver.elim [] (fun name => [.identifier name.node, .symbol .dot]) ++
    (.identifier callee.node :: .symbol .parenOpen :: (listed args ++ [.symbol .parenClose]))

mutual

/-- The lexemes of an expression. -/
def Expr.lexemes : Expr → List Lexeme
  | .binary op left right _ => left.lexemes ++ .symbol op.symbol :: right.lexemes
  | .unary op operand _ => .symbol op.symbol :: operand.lexemes
  | .integer value _ => [.integer value]
  | .string content _ => [.string content]
  | .boolean true _ => [.keyword .true]
  | .boolean false _ => [.keyword .false]
  | .null _ => [.keyword .null]
  | .this _ => [.keyword .this]
  | .variable name _ => [.identifier name]
  | .element array index _ =>
    .identifier array.node :: .symbol .bracketOpen :: (index.lexemes ++ [.symbol .bracketClose])
  | .call receiver callee args _ => callLexemes receiver callee (Expr.allLexemes args)
  | .group inner _ => .symbol .parenOpen :: (inner.lexemes ++ [.symbol .parenClose])

/-- The lexemes of each expression of a list. -/
def Expr.allLexemes : List Expr → List (List Lexeme)
  | [] => []
  | expr :: rest => expr.lexemes :: Expr.allLexemes rest

end

/-- Lexemes in parentheses. -/
def parenthesized (inner : List Lexeme) : List Lexeme :=
  .symbol .parenOpen :: (inner ++ [.symbol .parenClose])

/-- Lexemes in braces. -/
def braced (inner : List Lexeme) : List Lexeme :=
  .symbol .braceOpen :: (inner ++ [.symbol .braceClose])

mutual

/-- The lexemes of a statement. -/
def Stmt.lexemes : Stmt → List Lexeme
  | .assign target value _ =>
    .keyword .let :: .identifier target.node :: .symbol .equals ::
      (value.lexemes ++ [.symbol .semicolon])
  | .assignElement array index value _ =>
    .keyword .let :: .identifier array.node :: .symbol .bracketOpen ::
      (index.lexemes ++ .symbol .bracketClose :: .symbol .equals ::
        (value.lexemes ++ [.symbol .semicolon]))
  | .branch condition thenBody elseBody _ =>
    .keyword .if :: (parenthesized condition.lexemes ++ (braced (Stmt.bodyLexemes thenBody) ++
      if elseBody.isEmpty then [] else .keyword .else :: braced (Stmt.bodyLexemes elseBody)))
  | .loop condition body _ =>
    .keyword .while :: (parenthesized condition.lexemes ++ braced (Stmt.bodyLexemes body))
  | .call receiver callee args _ =>
    .keyword .do :: (callLexemes receiver callee (args.map Expr.lexemes) ++ [.symbol .semicolon])
  | .leave none _ => [.keyword .return, .symbol .semicolon]
  | .leave (some result) _ => .keyword .return :: (result.lexemes ++ [.symbol .semicolon])

/-- The lexemes of statements. -/
def Stmt.bodyLexemes : List Stmt → List Lexeme
  | [] => []
  | stmt :: rest => stmt.lexemes ++ Stmt.bodyLexemes rest

end

/-- A declaration of one name, after the reserved word that declares it. -/
def declarationLexemes (word : Keyword) (type : JackType) (name : Name) : List Lexeme :=
  [.keyword word, type.lexeme, .identifier name.node, .symbol .semicolon]

/-- The lexemes of a parameter. -/
def Variable.lexemes (param : Variable) : List Lexeme :=
  [param.type.lexeme, .identifier param.name.node]

/-- The lexemes of a subroutine. -/
def Subroutine.lexemes (subroutine : Subroutine) : List Lexeme :=
  .keyword subroutine.kind.keyword :: subroutine.result.lexeme ::
    .identifier subroutine.name.node ::
    (parenthesized (listed (subroutine.params.map Variable.lexemes)) ++
      braced (subroutine.locals.flatMap (fun item => declarationLexemes .var item.type item.name) ++
        Stmt.bodyLexemes subroutine.body))

/-- The lexemes of a class. -/
def Class.lexemes (cls : Class) : List Lexeme :=
  .keyword .class :: .identifier cls.name.node ::
    braced (cls.vars.flatMap
        (fun item => declarationLexemes item.storage.keyword item.type item.name) ++
      cls.subroutines.flatMap Subroutine.lexemes)

/-- The lexemes of expressions one by one. -/
theorem Expr.allLexemes_eq_map (exprs : List Expr) :
    Expr.allLexemes exprs = exprs.map Expr.lexemes := by
  induction exprs with
  | nil => rfl
  | cons expr rest ih => rw [Expr.allLexemes, ih, List.map_cons]

/-- The lexemes of statements one by one. -/
theorem Stmt.bodyLexemes_eq_flatMap (stmts : List Stmt) :
    Stmt.bodyLexemes stmts = stmts.flatMap Stmt.lexemes := by
  induction stmts with
  | nil => rfl
  | cons stmt rest ih => rw [Stmt.bodyLexemes, ih, List.flatMap_cons]

/-- Lexemes as a source text, with a space between each two. -/
def spacedText (lexemes : List Lexeme) : String := " ".intercalate (lexemes.map Lexeme.text)

/-- The canonical source text of a class. -/
def Class.text (cls : Class) : String := spacedText cls.lexemes

/-! ## Other ways to write a class -/

/-- Lexemes that differ in one place, which the second ones write out. -/
inductive Respelling : List Lexeme → List Lexeme → Prop where
  /-- The first of several names gets a declaration of its own. -/
  | declaration (front back : List Lexeme) (type : JackType) (name : String) {word : Keyword}
      (declares : word ∈ [Keyword.static, .field, .var]) :
      Respelling
        (front ++ [.keyword word, type.lexeme, .identifier name, .symbol .comma] ++ back)
        (front ++ [.keyword word, type.lexeme, .identifier name, .symbol .semicolon,
          .keyword word, type.lexeme] ++ back)
  /-- An empty else block is left out. -/
  | emptyElse (front back : List Lexeme) :
      Respelling (front ++ [.keyword .else, .symbol .braceOpen, .symbol .braceClose] ++ back)
        (front ++ back)

/-- Lexemes that become the second ones when declarations of several names are written apart and
empty else blocks are left out. -/
def Respelled : List Lexeme → List Lexeme → Prop := Relation.ReflTransGen Respelling

/-! ## Grouping -/

/-- The operator at the top of an expression that is a bare binary operation. -/
def Expr.top? : Expr → Option BinaryOp
  | .binary op _ _ _ => some op
  | _ => none

mutual

/-- The operators of an expression group as they bind: a left operand binds at least as tightly as
its operator, a right one tighter, and the operand of a sign is no bare binary operation. -/
def Expr.Grouped : Expr → Prop
  | .binary op left right _ =>
    (∀ inner ∈ left.top?, op.leftPower ≤ inner.leftPower) ∧
      (∀ inner ∈ right.top?, op.leftPower < inner.leftPower) ∧ left.Grouped ∧ right.Grouped
  | .unary _ operand _ => operand.top? = none ∧ operand.Grouped
  | .integer _ _ | .string _ _ | .boolean _ _ | .null _ | .this _ | .variable _ _ => True
  | .element _ index _ => index.Grouped
  | .call _ _ args _ => Expr.AllGrouped args
  | .group inner _ => inner.Grouped

/-- The operators of expressions group as they bind. -/
def Expr.AllGrouped : List Expr → Prop
  | [] => True
  | expr :: rest => expr.Grouped ∧ Expr.AllGrouped rest

end

mutual

/-- The operators of a statement group as they bind. -/
def Stmt.Grouped : Stmt → Prop
  | .assign _ value _ => value.Grouped
  | .assignElement _ index value _ => index.Grouped ∧ value.Grouped
  | .branch condition thenBody elseBody _ =>
    condition.Grouped ∧ Stmt.AllGrouped thenBody ∧ Stmt.AllGrouped elseBody
  | .loop condition body _ => condition.Grouped ∧ Stmt.AllGrouped body
  | .call _ _ args _ => Expr.AllGrouped args
  | .leave result _ => ∀ value ∈ result, value.Grouped

/-- The operators of statements group as they bind. -/
def Stmt.AllGrouped : List Stmt → Prop
  | [] => True
  | stmt :: rest => stmt.Grouped ∧ Stmt.AllGrouped rest

end

/-- The operators of a class group as they bind. -/
def Class.Grouped (cls : Class) : Prop :=
  ∀ subroutine ∈ cls.subroutines, Stmt.AllGrouped subroutine.body

/-- The operators of expressions group if those of each do. -/
theorem Expr.allGrouped_iff {exprs : List Expr} :
    Expr.AllGrouped exprs ↔ ∀ expr ∈ exprs, expr.Grouped := by
  induction exprs with
  | nil => exact iff_of_true trivial fun expr member => by contradiction
  | cons expr rest ih => rw [Expr.AllGrouped, ih, List.forall_mem_cons]

/-! ## Rules of respelling -/

section Rules

variable {front front' back back' lexemes : List Lexeme}

/-- Lexemes are written as they are. -/
theorem Respelled.refl (lexemes : List Lexeme) : Respelled lexemes lexemes :=
  Relation.ReflTransGen.refl

/-- What is respelled may have anything around it. -/
theorem Respelled.within (before behind : List Lexeme) (respelled : Respelled front front') :
    Respelled (before ++ front ++ behind) (before ++ front' ++ behind) := by
  refine Relation.ReflTransGen.lift (fun lexemes => before ++ lexemes ++ behind) ?_ _ _ respelled
  rintro _ _ (⟨front, back, type, name, declares⟩ | ⟨front, back⟩)
  · simpa [Function.onFun] using
      Respelling.declaration (before ++ front) (back ++ behind) type name declares
  · simpa [Function.onFun] using Respelling.emptyElse (before ++ front) (back ++ behind)

/-- Consecutive lexemes are respelled one after the other. -/
theorem Respelled.append (first : Respelled front front') (second : Respelled back back') :
    Respelled (front ++ back) (front' ++ back') := by
  have left := first.within [] back
  have right := second.within front' []
  rw [List.nil_append, List.nil_append] at left
  rw [List.append_nil, List.append_nil] at right
  exact left.trans right

/-- A first lexeme stays. -/
theorem Respelled.cons (lexeme : Lexeme) (rest : Respelled front front') :
    Respelled (lexeme :: front) (lexeme :: front') := (Respelled.refl [lexeme]).append rest

/-- The names of a declaration get a declaration each. -/
theorem respelled_declaration {word : Keyword} (declares : word ∈ [Keyword.static, .field, .var])
    (type : JackType) (first : Name) (others : List Name) :
    Respelled
      (.keyword word :: type.lexeme ::
        (listed ((first :: others).map fun name => [.identifier name.node]) ++
          [.symbol .semicolon]))
      ((first :: others).flatMap (declarationLexemes word type)) := by
  induction others generalizing first with
  | nil => exact .refl _
  | cons second rest ih =>
    have apart := Respelling.declaration []
      (listed ((second :: rest).map fun name => [.identifier name.node]) ++ [.symbol .semicolon])
      type first.node declares
    refine .head (b := declarationLexemes word type first ++ (.keyword word :: type.lexeme ::
      (listed ((second :: rest).map fun name => [.identifier name.node]) ++
        [.symbol .semicolon]))) ?_ ?_
    · simpa [listed, List.intercalate_cons_cons, declarationLexemes] using apart
    · exact (Respelled.refl _).append (ih second)

/-- An empty else block is left out. -/
theorem respelled_emptyElse : Respelled (.keyword .else :: braced []) [] :=
  .single (.emptyElse [] [])

end Rules

end JackToolchain.Jack
