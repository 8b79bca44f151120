/-!
# Lexemes of Jack

The words, marks and literals of the language, each with its spelling. A keyword or a symbol is
found by searching the list of all of them for its spelling, so a spelling is written once.
-/
namespace JackToolchain.Jack

/-- The reserved words. -/
inductive Keyword where
  | «class» | constructor | function | method | field | static | var
  | int | char | boolean | void | «true» | «false» | null | this
  | «let» | «do» | «if» | «else» | «while» | «return»
deriving DecidableEq

/-- The spelling of a reserved word. -/
def Keyword.text : Keyword → String
  | .class => "class"
  | .constructor => "constructor"
  | .function => "function"
  | .method => "method"
  | .field => "field"
  | .static => "static"
  | .var => "var"
  | .int => "int"
  | .char => "char"
  | .boolean => "boolean"
  | .void => "void"
  | .true => "true"
  | .false => "false"
  | .null => "null"
  | .this => "this"
  | .let => "let"
  | .do => "do"
  | .if => "if"
  | .else => "else"
  | .while => "while"
  | .return => "return"

/-- Every reserved word. -/
def Keyword.all : List Keyword :=
  [.class, .constructor, .function, .method, .field, .static, .var, .int, .char, .boolean,
    .void, .true, .false, .null, .this, .let, .do, .if, .else, .while, .return]

/-- The reserved word with this spelling. -/
def Keyword.ofText? (text : String) : Option Keyword :=
  Keyword.all.find? fun word => word.text == text

/-- The marks of one character. -/
inductive Symbol where
  | braceOpen | braceClose | parenOpen | parenClose | bracketOpen | bracketClose
  | dot | comma | semicolon
  | plus | minus | star | slash | ampersand | bar | less | greater | equals | tilde
deriving DecidableEq

/-- The character of a mark. -/
def Symbol.char : Symbol → Char
  | .braceOpen => '\x7b'
  | .braceClose => '\x7d'
  | .parenOpen => '('
  | .parenClose => ')'
  | .bracketOpen => '['
  | .bracketClose => ']'
  | .dot => '.'
  | .comma => ','
  | .semicolon => ';'
  | .plus => '+'
  | .minus => '-'
  | .star => '*'
  | .slash => '/'
  | .ampersand => '&'
  | .bar => '|'
  | .less => '<'
  | .greater => '>'
  | .equals => '='
  | .tilde => '~'

/-- Every mark. -/
def Symbol.all : List Symbol :=
  [.braceOpen, .braceClose, .parenOpen, .parenClose, .bracketOpen, .bracketClose, .dot, .comma,
    .semicolon, .plus, .minus, .star, .slash, .ampersand, .bar, .less, .greater, .equals, .tilde]

/-- The mark with this character. -/
def Symbol.ofChar? (c : Char) : Option Symbol :=
  Symbol.all.find? fun symbol => symbol.char == c

/-- One unit of source text. The end of a text is a lexeme too, so that a reader can say what
it found there. -/
inductive Lexeme where
  | keyword (word : Keyword)
  | symbol (mark : Symbol)
  | integer (value : Nat)
  | string (content : String)
  | identifier (name : String)
  | eof
deriving DecidableEq

/-- The lexeme as it is written in a source text. -/
def Lexeme.text : Lexeme → String
  | .keyword word => word.text
  | .symbol mark => mark.char.toString
  | .integer value => value.repr
  | .string content => "\"" ++ content ++ "\""
  | .identifier name => name
  | .eof => "<eof>"

/-- The lexeme as a message names it. -/
def Lexeme.description : Lexeme → String
  | .integer value => s!"integer literal '{value}'"
  | .string content => s!"string literal \"{content}\""
  | .identifier name => s!"identifier '{name}'"
  | .eof => "end of file"
  | lexeme => "'" ++ lexeme.text ++ "'"

/-- Every reserved word is found by its spelling. -/
theorem Keyword.ofText?_text (word : Keyword) : Keyword.ofText? word.text = some word := by
  cases word <;> decide

end JackToolchain.Jack
