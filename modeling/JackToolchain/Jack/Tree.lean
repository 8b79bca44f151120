import JackToolchain.Jack.Lexeme
import JackToolchain.Span

/-!
# Jack classes as trees

One source text holds one class. Expressions, statements and names carry the span they were read
from. Parentheses stay in the tree as groups, so the tree determines the lexemes it was read
from.
-/
namespace JackToolchain.Jack

/-- The type of a variable or of the result of a subroutine. `void` is a result type only. -/
inductive JackType where
  | int | char | boolean | void
  | object (className : String)
deriving DecidableEq

/-- The name of a type, which also qualifies the methods called on a variable of that type. -/
def JackType.name : JackType → String
  | .int => "int"
  | .char => "char"
  | .boolean => "boolean"
  | .void => "void"
  | .object className => className

/-- The two kinds of class variable: shared by the class, or one for each object. -/
inductive ClassStorage where
  | static | field
deriving DecidableEq

/-- A class variable; a declaration of several names is several of these. -/
structure ClassVariable where
  /-- Shared or one for each object. -/
  storage : ClassStorage
  /-- Its type. -/
  type : JackType
  /-- Its name. -/
  name : Name

/-- A parameter or a local variable. -/
structure Variable where
  /-- Its type. -/
  type : JackType
  /-- Its name. -/
  name : Name

/-- The three kinds of subroutine. -/
inductive SubroutineKind where
  | constructor | function | method
deriving DecidableEq

/-- The reserved word that declares a kind of subroutine. -/
def SubroutineKind.keyword : SubroutineKind → Keyword
  | .constructor => .constructor
  | .function => .function
  | .method => .method

/-- The infix operators. -/
inductive BinaryOp where
  | add | sub | mul | div | and | or | lt | gt | eq
deriving DecidableEq

/-- The mark of an infix operator. -/
def BinaryOp.symbol : BinaryOp → Symbol
  | .add => .plus
  | .sub => .minus
  | .mul => .star
  | .div => .slash
  | .and => .ampersand
  | .or => .bar
  | .lt => .less
  | .gt => .greater
  | .eq => .equals

/-- Every infix operator. -/
def BinaryOp.all : List BinaryOp := [.add, .sub, .mul, .div, .and, .or, .lt, .gt, .eq]

/-- The infix operator with this mark. -/
def BinaryOp.ofSymbol? (mark : Symbol) : Option BinaryOp :=
  BinaryOp.all.find? fun op => op.symbol == mark

/-- How tightly an operator binds its left operand; a larger number binds tighter. -/
def BinaryOp.leftPower : BinaryOp → Nat
  | .or => 1
  | .and => 3
  | .eq | .lt | .gt => 5
  | .add | .sub => 7
  | .mul | .div => 9

/-- How tightly an operator binds its right operand: more than its left one, so that a chain of
equally strong operators groups to the left. -/
def BinaryOp.rightPower (op : BinaryOp) : Nat := op.leftPower + 1

/-- The sign operators. -/
inductive UnaryOp where
  | neg | not
deriving DecidableEq

/-- The mark of a sign operator. -/
def UnaryOp.symbol : UnaryOp → Symbol
  | .neg => .minus
  | .not => .tilde

/-- Expressions. A call holds its receiver, if it names one, the subroutine and the
arguments. -/
inductive Expr where
  | binary (op : BinaryOp) (left right : Expr) (span : Span)
  | unary (op : UnaryOp) (operand : Expr) (span : Span)
  | integer (value : Nat) (span : Span)
  | string (content : String) (span : Span)
  | boolean (value : Bool) (span : Span)
  | null (span : Span)
  | this (span : Span)
  | variable (name : String) (span : Span)
  | element (array : Name) (index : Expr) (span : Span)
  | call (receiver : Option Name) (callee : Name) (args : List Expr) (span : Span)
  | group (inner : Expr) (span : Span)

/-- Where an expression stands. -/
def Expr.span : Expr → Span
  | .binary _ _ _ span => span
  | .unary _ _ span => span
  | .integer _ span => span
  | .string _ span => span
  | .boolean _ span => span
  | .null span => span
  | .this span => span
  | .variable _ span => span
  | .element _ _ span => span
  | .call _ _ _ span => span
  | .group _ span => span

/-- Statements. A statement without an else branch has an empty one. -/
inductive Stmt where
  | assign (target : Name) (value : Expr) (span : Span)
  | assignElement (array : Name) (index value : Expr) (span : Span)
  | branch (condition : Expr) (thenBody elseBody : List Stmt) (span : Span)
  | loop (condition : Expr) (body : List Stmt) (span : Span)
  | call (receiver : Option Name) (callee : Name) (args : List Expr) (span : Span)
  | leave (result : Option Expr) (span : Span)

/-- Where a statement stands. -/
def Stmt.span : Stmt → Span
  | .assign _ _ span => span
  | .assignElement _ _ _ span => span
  | .branch _ _ _ span => span
  | .loop _ _ span => span
  | .call _ _ _ span => span
  | .leave _ span => span

/-- A subroutine of a class. -/
structure Subroutine where
  /-- Constructor, function or method. -/
  kind : SubroutineKind
  /-- The type of its result. -/
  result : JackType
  /-- Its name within the class. -/
  name : Name
  /-- Its parameters in order. -/
  params : List Variable
  /-- Its local variables in order. -/
  locals : List Variable
  /-- Its statements in order. -/
  body : List Stmt

/-- A class. -/
structure Class where
  /-- Its name. -/
  name : Name
  /-- Its variables in order. -/
  vars : List ClassVariable
  /-- Its subroutines in order. -/
  subroutines : List Subroutine

end JackToolchain.Jack
