import JackToolchain.Proofs.Jack.Reformatting
import JackToolchain.Proofs.Routes

/-!
# Formatting

Blanks, line ends and comments between the lexemes of a class change nothing about what it is
compiled to, and nothing about what is said if it is refused. In particular a class may be written
with single spaces between its lexemes.
-/
namespace JackToolchain

open Jack (Lexeme scan spacedText)

/-- The lexemes of a source text with single spaces between them. -/
def respaced (tokens : List (Spanned Lexeme)) : String :=
  spacedText ((tokens.map Spanned.node).filter (· ≠ .eof))

section Units

variable {unit : SourceUnit} {tokens : List (Spanned Lexeme)}

/-- Units with the same lexemes compile to the same text, or the reports on them say the same. -/
theorem compileUnit_congr {other : SourceUnit} {others : List (Spanned Lexeme)} (options : Options)
    (scanned : scan unit.source = .ok tokens) (scannedOther : scan other.source = .ok others)
    (same : tokens.map Spanned.node = others.map Spanned.node) :
    (compileUnit options unit).mapError Report.wording =
      (compileUnit options other).mapError Report.wording := by
  refine reporting_mapError_wording unit other ?_
  exact bind_mapError_congr _ (Jack.compile_alike options.runtime scanned scannedOther same)

/-- The lexemes of a source text are those of the text with single spaces between them. -/
theorem scan_respaced {source : String} (scanned : scan source = .ok tokens) :
    ∃ others, scan (respaced tokens) = .ok others ∧
      tokens.map Spanned.node = others.map Spanned.node := by
  obtain ⟨front, nodes, writable⟩ := Jack.writable_of_scan scanned
  obtain ⟨others, spaced, same⟩ := Jack.scan_spacedText writable
  have kept : ∀ lexeme ∈ front, decide (lexeme ≠ .eof) = true := fun lexeme member =>
    decide_eq_true fun last => (last ▸ writable lexeme member : Lexeme.eof.Writable)
  have words : (tokens.map Spanned.node).filter (· ≠ .eof) = front := by
    rw [nodes, List.filter_append, List.filter_eq_self.mpr kept]
    exact List.append_nil front
  refine ⟨others, ?_, nodes.trans same.symm⟩
  rw [respaced, words]
  exact spaced

/-- Formatting does not change a class. A source text with the same lexemes as another, wherever they
stand and whatever blanks and comments stand between them, compiles to the same text or is refused
with the same message, notes and advice. Such a source text is made of the lexemes with single
spaces between them. -/
theorem compileUnit_reformatted (options : Options) (scanned : scan unit.source = .ok tokens) :
    (∀ (other : SourceUnit) (others : List (Spanned Lexeme)), scan other.source = .ok others →
      tokens.map Spanned.node = others.map Spanned.node →
        (compileUnit options unit).mapError Report.wording =
          (compileUnit options other).mapError Report.wording) ∧
      (∃ others, scan (respaced tokens) = .ok others ∧
        tokens.map Spanned.node = others.map Spanned.node) ∧
      (compileUnit options unit).mapError Report.wording =
        (compileUnit options (unit.withSource (respaced tokens))).mapError Report.wording := by
  obtain ⟨others, spaced, same⟩ := scan_respaced scanned
  exact ⟨fun other others scannedOther same => compileUnit_congr options scanned scannedOther same,
    ⟨others, spaced, same⟩, compileUnit_congr options scanned spaced same⟩

/-- The class that prints a text, on several lines and with comments. -/
def commentedUnit : SourceUnit := greetingUnit.withSource
  ("// A greeting.\nclass Main\n\x7b\n\tfunction void main() /* without arguments */\n\t\x7b\n" ++
    "\t\tdo Output . print (\"ok\");\n\t\treturn;\n\t\x7d\n\x7d\n")

/-- The lexemes of both texts of the class. -/
def greetingLexemes : List Lexeme :=
  [.keyword .class, .identifier "Main", .symbol .braceOpen, .keyword .function, .keyword .void,
    .identifier "main", .symbol .parenOpen, .symbol .parenClose, .symbol .braceOpen, .keyword .do,
    .identifier "Output", .symbol .dot, .identifier "print", .symbol .parenOpen, .string "ok",
    .symbol .parenClose, .symbol .semicolon, .keyword .return, .symbol .semicolon,
    .symbol .braceClose, .symbol .braceClose, .eof]

/-- A class on one line is compiled as the same class on several lines. -/
theorem greeting_reformatted :
    ∃ tokens others, scan greetingUnit.source = .ok tokens ∧
      scan commentedUnit.source = .ok others ∧
      (compileUnit {} greetingUnit).mapError Report.wording =
        (compileUnit {} commentedUnit).mapError Report.wording ∧
      (compileUnit {} greetingUnit).mapError Report.wording =
        (compileUnit {} (greetingUnit.withSource (respaced tokens))).mapError Report.wording := by
  have short : (scan greetingUnit.source).toOption.map (List.map Spanned.node) =
      some greetingLexemes := by
    decide +kernel
  have long : (scan commentedUnit.source).toOption.map (List.map Spanned.node) =
      some greetingLexemes := by
    decide +kernel
  obtain ⟨tokens, scanned, nodes⟩ := Option.map_eq_some_iff.mp short
  obtain ⟨others, commented, same⟩ := Option.map_eq_some_iff.mp long
  have scanned := toOption_eq_some.mp scanned
  have commented := toOption_eq_some.mp commented
  obtain ⟨alike, -, spaced⟩ := compileUnit_reformatted {} scanned
  exact ⟨tokens, others, scanned, commented,
    alike commentedUnit others commented (nodes.trans same.symm), spaced⟩

end Units

end JackToolchain
