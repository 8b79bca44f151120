import JackToolchain.Assembly.Instruction
import JackToolchain.Jack.Lexeme
import JackToolchain.Span
import JackToolchain.Text.Numeral
import JackToolchain.Vm.Command

/-!
# Faults

Everything that can be wrong with a source text, as causes. `Malformed` holds the ways in which
a text breaks its format; `Fault` adds the faults of names, indices and instructions. The wording
of each is in `message`, and nowhere else.
-/
namespace JackToolchain

open Jack (Lexeme)
open Vm (Command Segment)
open Assembly (Instruction)

/-- The largest integer constant, and the largest code of a character in a string. -/
def maxConstant : Nat := 32767

/-- The number of instructions that a program may have. -/
def romSize : Nat := 32768

/-- The ways in which a text breaks its format. -/
inductive Malformed where
  /-- A block comment without its end. -/
  | unterminatedComment
  /-- A string literal without its closing quote on the same line. -/
  | unterminatedString
  /-- A byte that begins no lexeme. -/
  | strayByte (byte : UInt8)
  /-- A letter directly after a number. -/
  | letterInNumber (letter : Char)
  /-- An integer literal above the largest constant. -/
  | integerTooLarge (digits : String)
  /-- A character in a string literal above the largest constant. -/
  | characterOutOfRange (c : Char)
  /-- Another lexeme than the one that must stand here. -/
  | expectedLexeme (wanted found : Lexeme)
  /-- No identifier where one must stand. -/
  | expectedIdentifier (found : Lexeme)
  /-- No type where one must stand. -/
  | expectedType (found : Lexeme)
  /-- No statement where one must stand. -/
  | expectedStatement (found : Lexeme)
  /-- No expression where one must stand. -/
  | expectedExpression (found : Lexeme)
  /-- Text after the class. -/
  | textAfterClass (className : String) (found : Lexeme)
  /-- More levels of nesting than the language allows. -/
  | nestingTooDeep (limit : Nat)
  /-- A command line without a word. -/
  | emptyCommand
  /-- A command with the wrong number of operands. -/
  | operandCount (expected : Nat) (line : String) (found : Nat)
  /-- A segment that does not exist. -/
  | unknownSegment (word line : String)
  /-- An index that is not written in digits. -/
  | notAnIndex (word line : String)
  /-- An index that does not fit in 32 bits. -/
  | indexTooLarge (word line : String)
  /-- A name with a character that names do not have, or that starts with a digit. -/
  | invalidSymbol (word line : String)
  /-- A count of locals or arguments that no instruction can load. -/
  | countOutOfRange (count : Nat) (command : Command) (limit : Nat)
  /-- An address above the largest one. -/
  | addressTooLarge (digits : String)
  /-- A label without its closing parenthesis. -/
  | unterminatedLabel (line : String)
  /-- A compute instruction that computes nothing. -/
  | missingComputation (line : String)
  /-- More instructions than the program memory holds. -/
  | programTooLong (count : Nat)
deriving DecidableEq

/-- The wording of a broken format. -/
def Malformed.message : Malformed → String
  | .unterminatedComment => "unterminated block comment"
  | .unterminatedString => "unterminated string literal"
  | .strayByte byte =>
    let shown := (Char.ofNat byte.toNat).toString
    let code := Text.hexadecimal byte.toNat
    s!"unexpected character '{shown}' (U+{code})"
  | .letterInNumber letter => s!"unexpected character '{letter}' in integer literal"
  | .integerTooLarge digits =>
    s!"integer literal '{digits}' is too large (maximum is {maxConstant})"
  | .characterOutOfRange c =>
    let code := Text.hexadecimal c.toNat
    s!"character U+{code} in string literal is out of range (maximum is {maxConstant})"
  | .expectedLexeme wanted found => s!"expected {wanted.description}, found {found.description}"
  | .expectedIdentifier found => s!"expected identifier, found {found.description}"
  | .expectedType found => s!"expected type, found {found.description}"
  | .expectedStatement found => s!"expected statement, found {found.description}"
  | .expectedExpression found => s!"expected expression, found {found.description}"
  | .textAfterClass className found =>
    s!"expected end of file after class '{className}', found {found.description}"
  | .nestingTooDeep limit => s!"nesting depth exceeded (maximum {limit} levels)"
  | .emptyCommand => "empty command"
  | .operandCount expected line found =>
    let plural := if expected = 1 then "" else "s"
    s!"expected {expected} operand{plural} in `{line}`, found {found}"
  | .unknownSegment word line => s!"unknown segment '{word}' in `{line}`"
  | .notAnIndex word line => s!"expected a non-negative index, found '{word}' in `{line}`"
  | .indexTooLarge word line => s!"index '{word}' out of range in `{line}`"
  | .invalidSymbol word line => s!"invalid symbol '{word}' in `{line}`"
  | .countOutOfRange count command limit =>
    s!"count {count} in `{command.text}` is out of range (maximum is {limit})"
  | .addressTooLarge digits => s!"address '{digits}' does not fit in 15 bits"
  | .unterminatedLabel line => s!"unterminated label `{line}`"
  | .missingComputation line => s!"missing computation in `{line}`"
  | .programTooLong count => s!"program has {count} instructions; ROM holds {romSize}"

/-- Everything that can be wrong with a source text. -/
inductive Fault where
  /-- The text breaks its format. -/
  | malformed (reason : Malformed)
  /-- A variable that no scope in sight declares. -/
  | undeclaredVariable (scope name : String)
  /-- A call without a receiver to a subroutine that the class does not declare. -/
  | unknownSubroutine (className name : String)
  /-- An index outside its segment. -/
  | invalidIndex (segment : Segment) (index : Nat) (command : Command)
  /-- A second declaration of a name in one scope. -/
  | duplicate (scope name : String)
  /-- A command line that names no command. -/
  | unsupportedLine (line : String)
  /-- A command that nothing implements. -/
  | unsupportedCommand (command : Command)
  /-- A compute instruction that has no encoding. -/
  | unsupportedInstruction (instruction : Instruction)
deriving DecidableEq

namespace Fault

/-- The wording of a fault. -/
def message : Fault → String
  | malformed reason => "syntax error: " ++ reason.message
  | undeclaredVariable scope name => s!"undeclared variable '{name}' in {scope}"
  | unknownSubroutine className name => s!"unknown subroutine '{name}' in class {className}"
  | invalidIndex segment index command =>
    s!"invalid index {index} for segment '{segment.name}' in `{command.text}`"
  | duplicate scope name => s!"'{name}' is already declared in {scope}"
  | unsupportedLine line => s!"unsupported instruction `{line}`"
  | unsupportedCommand command => s!"unsupported instruction `{command.text}`"
  | unsupportedInstruction instruction => s!"unsupported instruction `{instruction.text}`"

/-- The class of a fault, under the name that reports give it. -/
def kind : Fault → String
  | malformed _ => "SyntaxError"
  | undeclaredVariable _ _ => "UndeclaredVariable"
  | unknownSubroutine _ _ => "UnknownSubroutine"
  | invalidIndex _ _ _ => "InvalidSegmentIndex"
  | duplicate _ _ => "DuplicateDeclaration"
  | unsupportedLine _ | unsupportedCommand _ | unsupportedInstruction _ =>
    "UnsupportedInstruction"

/-- Advice on how to avoid a fault, where there is any. -/
def help? : Fault → Option String
  | invalidIndex .temp _ _ => some "the temp segment has indices 0..=7"
  | invalidIndex .pointer _ _ =>
    some "pointer 0 is the current object, pointer 1 the array cursor"
  | unknownSubroutine className _ =>
    some s!"calls without a receiver must name a subroutine declared in {className}"
  | _ => none

end Fault

/-- The outcome of a stage that stops at the first fault of its source text. -/
abbrev Outcome (α : Type) := Except (Spanned Fault) α

end JackToolchain
