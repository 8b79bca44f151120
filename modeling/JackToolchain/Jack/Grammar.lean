import JackToolchain.Jack.Scan
import JackToolchain.Jack.Tree

/-!
# The grammar

Reads lexemes as a class. Every choice is made on the next lexeme, and reading stops at the first
lexeme that cannot stand where it stands.

Nesting is bounded: a reader for expressions or blocks is given the number of levels that are
left, and every expression, sign, operator in a chain and block takes one. The readers recurse on
that number alone. The readers that repeat are given the number of lexemes that are left, which
is enough because each repetition takes at least one.
-/
namespace JackToolchain.Jack

/-- The lexemes that are left, and the place of the last one taken. -/
structure Cursor where
  /-- The lexemes that are left. -/
  rest : List (Spanned Lexeme)
  /-- The place of the last lexeme taken. -/
  last : Span

/-- The next lexeme; past the last one stands the end of the text. -/
def Cursor.next (cursor : Cursor) : Spanned Lexeme :=
  cursor.rest.headD ⟨.eof, ⟨cursor.last.stop, cursor.last.stop⟩⟩

/-- Moves past the next lexeme. -/
def Cursor.advance (cursor : Cursor) : Cursor := ⟨cursor.rest.tail, cursor.next.span⟩

/-- A reader takes lexemes from the front of those that are left. -/
abbrev Reader := StateT Cursor (Except (Spanned Fault))

namespace Reader

variable {α : Type}

/-- The next lexeme, which stays. -/
def peek : Reader Lexeme := do return (← get).next.node

/-- The place of the next lexeme. -/
def place : Reader Span := do return (← get).next.span

/-- Takes the next lexeme. -/
def advance : Reader Unit := modify Cursor.advance

/-- Refuses the next lexeme. -/
def refuse (reason : Malformed) : Reader α := do throw ⟨.malformed reason, ← place⟩

/-- Takes the next lexeme if it is the given one, and says whether it was. -/
def accept (lexeme : Lexeme) : Reader Bool := do
  if (← peek) = lexeme then
    advance
    return true
  else return false

/-- Takes the given lexeme, which must come next. -/
def expect (lexeme : Lexeme) : Reader Unit := do
  unless ← accept lexeme do refuse (.expectedLexeme lexeme (← peek))

/-- Takes an identifier, which must come next. -/
def identifier : Reader Name := do
  match ← peek with
  | .identifier text =>
    let span ← place
    advance
    return ⟨text, span⟩
  | found => refuse (.expectedIdentifier found)

/-- Reads with `item` and adds to its result the span from the next lexeme to the last one that
`item` takes. -/
def spanned (item : Reader (Span → α)) : Reader α := do
  let start ← place
  let build ← item
  return build (start.merge (← get).last)

/-- Repeats `item` while the next lexeme satisfies `more`, at most `limit` times, and adds the
results to `done`, which is in reverse. -/
def repeatInto (more : Lexeme → Bool) (item : Reader α) : Nat → List α → Reader (List α)
  | 0, done => return done.reverse
  | limit + 1, done => do
    if more (← peek) then
      let value ← item
      repeatInto more item limit (value :: done)
    else return done.reverse

/-- Repeats `item` while the next lexeme satisfies `more`. -/
def «repeat» (more : Lexeme → Bool) (item : Reader α) : Reader (List α) := do
  repeatInto more item (← get).rest.length []

/-- Reads items with commas between them, of which there is at least one. -/
def commaSeparated (item : Reader α) : Reader (List α) := do
  let first ← item
  let others ← «repeat» (· = .symbol .comma) do
    advance
    item
  return first :: others

end Reader

open Reader

/-! ## Expressions -/

/-- The number of levels to which expressions and blocks may nest. -/
def nestingLimit : Nat := 256

/-- Refuses the next lexeme because no level is left for it. -/
def tooDeep {α : Type} : Reader α := refuse (.nestingTooDeep nestingLimit)

/-- Reads the arguments of a call with `expression`; there may be none. -/
def arguments (expression : Reader Expr) : Reader (List Expr) := do
  expect (.symbol .parenOpen)
  let args ←
    if (← peek) = .symbol .parenClose then pure []
    else commaSeparated expression
  expect (.symbol .parenClose)
  return args

/-- Reads a call after its first name: the receiver, the subroutine and the arguments. -/
def callAfter (expression : Reader Expr) (first : Name) :
    Reader (Option Name × Name × List Expr) := do
  if ← accept (.symbol .dot) then
    let callee ← identifier
    return (some first, callee, ← arguments expression)
  else return (none, first, ← arguments expression)

/-- Reads what follows a name in an expression. -/
def nameTerm (expression : Reader Expr) (name : Name) : Reader (Span → Expr) := do
  match ← peek with
  | .symbol .bracketOpen =>
    advance
    let index ← expression
    expect (.symbol .bracketClose)
    return .element name index
  | .symbol .parenOpen | .symbol .dot =>
    let (receiver, callee, args) ← callAfter expression name
    return .call receiver callee args
  | _ => return .variable name.node

/-- Takes one lexeme that is a whole expression. -/
def leaf (build : Span → Expr) : Reader (Span → Expr) := do
  advance
  return build

/-- Reads an expression without operators at its top. An expression inside it is read with
`expression` and the operand of a sign with `operand`. -/
def term (expression operand : Reader Expr) : Reader Expr := spanned do
  match ← peek with
  | .integer value => leaf (.integer value)
  | .string content => leaf (.string content)
  | .keyword .true => leaf (.boolean true)
  | .keyword .false => leaf (.boolean false)
  | .keyword .null => leaf .null
  | .keyword .this => leaf .this
  | .symbol .parenOpen =>
    advance
    let inner ← expression
    expect (.symbol .parenClose)
    return .group inner
  | .symbol .minus =>
    advance
    return .unary .neg (← operand)
  | .symbol .tilde =>
    advance
    return .unary .not (← operand)
  | .identifier _ => nameTerm expression (← identifier)
  | found => refuse (.expectedExpression found)

/-- The infix operator that a lexeme writes. -/
def BinaryOp.ofLexeme? : Lexeme → Option BinaryOp
  | .symbol mark => BinaryOp.ofSymbol? mark
  | _ => none

/-- Takes the next lexeme if it is an operator that binds at least as tightly as `floor`. -/
def acceptOperator (floor : Nat) : Reader (Option BinaryOp) := do
  match BinaryOp.ofLexeme? (← peek) with
  | some op =>
    if floor ≤ op.leftPower then
      advance
      return some op
    else return none
  | none => return none

mutual

/-- Reads an expression, given the number of levels that are left. -/
def expression : Nat → Reader Expr
  | 0 => tooDeep
  | levels + 1 => do
    let first ← term (expression levels) (operand levels)
    operators levels 0 first

/-- Reads the operand of a sign, given the number of levels that are left for the sign. -/
def operand : Nat → Reader Expr
  | 0 => tooDeep
  | levels + 1 => term (expression levels) (operand levels)

/-- Reads the rest of a chain of operators that bind at least as tightly as `floor`, where
`left` is the expression so far. The right operand of an operator is a chain of the operators
that bind tighter, and every operator takes a level from the ones after it in its chain. -/
def operators : Nat → Nat → Expr → Reader Expr
  | 0, floor, left => do
    match ← acceptOperator floor with
    | none => return left
    | some _ => tooDeep
  | levels + 1, floor, left => do
    match ← acceptOperator floor with
    | none => return left
    | some op =>
      let first ← term (expression levels) (operand levels)
      let right ← operators levels op.rightPower first
      operators levels floor (.binary op left right (left.span.merge right.span))

end

/-! ## Statements -/

/-- Reads an expression in parentheses. -/
def condition (expression : Reader Expr) : Reader Expr := do
  expect (.symbol .parenOpen)
  let value ← expression
  expect (.symbol .parenClose)
  return value

/-- Reads an assignment after its first word. -/
def assignment (expression : Reader Expr) : Reader (Span → Stmt) := do
  let target ← identifier
  let index ←
    if ← accept (.symbol .bracketOpen) then
      let index ← expression
      expect (.symbol .bracketClose)
      pure (some index)
    else pure none
  expect (.symbol .equals)
  let value ← expression
  expect (.symbol .semicolon)
  match index with
  | some index => return .assignElement target index value
  | none => return .assign target value

/-- Reads a branch after its first word. -/
def branch (expression : Reader Expr) (block : Reader (List Stmt)) : Reader (Span → Stmt) := do
  let test ← condition expression
  let thenBody ← block
  let elseBody ← if ← accept (.keyword .else) then block else pure []
  return .branch test thenBody elseBody

/-- Reads a loop after its first word. -/
def loop (expression : Reader Expr) (block : Reader (List Stmt)) : Reader (Span → Stmt) := do
  let test ← condition expression
  return .loop test (← block)

/-- Reads a call statement after its first word. -/
def callStatement (expression : Reader Expr) : Reader (Span → Stmt) := do
  let (receiver, callee, args) ← callAfter expression (← identifier)
  expect (.symbol .semicolon)
  return .call receiver callee args

/-- Reads a return statement after its first word. -/
def returnStatement (expression : Reader Expr) : Reader (Span → Stmt) := do
  let result ←
    if (← peek) = .symbol .semicolon then pure none
    else pure (some (← expression))
  expect (.symbol .semicolon)
  return .leave result

/-- Reads a statement. An expression in it is read with `expression` and a block with
`block`. -/
def statement (expression : Reader Expr) (block : Reader (List Stmt)) : Reader Stmt :=
  spanned do
    match ← peek with
    | .keyword .let =>
      advance
      assignment expression
    | .keyword .if =>
      advance
      branch expression block
    | .keyword .while =>
      advance
      loop expression block
    | .keyword .do =>
      advance
      callStatement expression
    | .keyword .return =>
      advance
      returnStatement expression
    | found => refuse (.expectedStatement found)

/-- Reads statements up to a closing brace or the end of the text. -/
def statementsWith (item : Reader Stmt) : Reader (List Stmt) :=
  «repeat» (fun next => next ≠ .symbol .braceClose && next ≠ .eof) item

/-- Reads a block, given the number of levels that are left. -/
def block : Nat → Reader (List Stmt)
  | 0 => do
    expect (.symbol .braceOpen)
    tooDeep
  | levels + 1 => do
    expect (.symbol .braceOpen)
    let body ← statementsWith (statement (expression levels) (block levels))
    expect (.symbol .braceClose)
    return body

/-- Reads statements, given the number of levels that are left. -/
def statements (levels : Nat) : Reader (List Stmt) :=
  statementsWith (statement (expression levels) (block levels))

/-! ## Classes -/

/-- Reads a type. -/
def typeName : Reader JackType := do
  let found ← peek
  let type ← match found with
    | .keyword .int => pure .int
    | .keyword .char => pure .char
    | .keyword .boolean => pure .boolean
    | .identifier className => pure (.object className)
    | _ => refuse (.expectedType found)
  advance
  return type

/-- Reads the names of a declaration, and the mark that ends it. -/
def declaredNames : Reader (List Name) := do
  let names ← commaSeparated identifier
  expect (.symbol .semicolon)
  return names

/-- The kind of class variable that a lexeme declares. -/
def ClassStorage.ofLexeme? : Lexeme → Option ClassStorage
  | .keyword .static => some .static
  | .keyword .field => some .field
  | _ => none

/-- Reads a declaration of class variables, whose first word says which kind they are. -/
def classVariables : Reader (List ClassVariable) := do
  let storage := (ClassStorage.ofLexeme? (← peek)).getD .field
  advance
  let type ← typeName
  return (← declaredNames).map fun name => ⟨storage, type, name⟩

/-- Reads a declaration of local variables. -/
def localVariables : Reader (List Variable) := do
  expect (.keyword .var)
  let type ← typeName
  return (← declaredNames).map fun name => ⟨type, name⟩

/-- Reads a parameter. -/
def parameter : Reader Variable := do
  let type ← typeName
  return ⟨type, ← identifier⟩

/-- Reads parameters in parentheses. -/
def parameters : Reader (List Variable) := do
  expect (.symbol .parenOpen)
  let params ←
    if (← peek) = .symbol .parenClose then pure []
    else commaSeparated parameter
  expect (.symbol .parenClose)
  return params

/-- The kind of subroutine that a lexeme declares. -/
def SubroutineKind.ofLexeme? : Lexeme → Option SubroutineKind
  | .keyword .constructor => some .constructor
  | .keyword .function => some .function
  | .keyword .method => some .method
  | _ => none

/-- Reads a subroutine, whose first word says which kind it is. -/
def subroutine : Reader Subroutine := do
  let kind := (SubroutineKind.ofLexeme? (← peek)).getD .function
  advance
  let result ← if ← accept (.keyword .void) then pure .void else typeName
  let name ← identifier
  let params ← parameters
  expect (.symbol .braceOpen)
  let locals ← «repeat» (· = .keyword .var) localVariables
  let body ← statements nestingLimit
  expect (.symbol .braceClose)
  return { kind, result, name, params, locals := locals.flatten, body }

/-- Reads a class. -/
def classDeclaration : Reader Class := do
  expect (.keyword .class)
  let name ← identifier
  expect (.symbol .braceOpen)
  let vars ← «repeat» (fun next => (ClassStorage.ofLexeme? next).isSome) classVariables
  let subroutines ← «repeat» (fun next => (SubroutineKind.ofLexeme? next).isSome) subroutine
  expect (.symbol .braceClose)
  return { name, vars := vars.flatten, subroutines }

/-- Reads a class and nothing after it. -/
def wholeClass : Reader Class := do
  let result ← classDeclaration
  let next ← peek
  unless next = .eof do refuse (.textAfterClass result.name.node next)
  return result

/-- Reads a source text as a class. Every lexeme is read before the grammar is looked at. -/
def readClass (source : String) : Outcome Class := do
  let lexemes ← scan source
  let (result, _) ← wholeClass.run ⟨lexemes, .nowhere⟩
  return result

end JackToolchain.Jack
