import JackToolchain.Fault

/-!
# Diagnostics

What is reported of a fault: its message and place, notes on it, and advice. A diagnostic without
a source text, such as that of a file that cannot be read, has the span `Span.nowhere`.
-/
namespace JackToolchain

/-- A report on one fault. -/
structure Diagnostic where
  /-- What is wrong. -/
  message : String
  /-- Where it is wrong. -/
  span : Span
  /-- Further facts, in the order in which they were added. -/
  notes : List String := []
  /-- Advice. -/
  help : Option String := none

namespace Diagnostic

/-- Adds a note after those that are there. -/
def withNote (diagnostic : Diagnostic) (note : String) : Diagnostic :=
  { diagnostic with notes := diagnostic.notes ++ [note] }

/-- Gives advice in place of any that was given. -/
def withHelp (diagnostic : Diagnostic) (help : String) : Diagnostic :=
  { diagnostic with help := some help }

/-- The report on a fault of a source text names the class of the fault in a note. -/
def ofFault (fault : Spanned Fault) : Diagnostic where
  message := fault.node.message
  span := fault.span
  notes := ["error kind: " ++ fault.node.kind]
  help := fault.node.help?

/-- The text of a report: the message, then a line for each note and one for the advice. -/
def text (diagnostic : Diagnostic) : String :=
  "error: " ++ diagnostic.message ++
    String.join (diagnostic.notes.map fun note => "\n  note: " ++ note) ++
    (diagnostic.help.elim "" fun help => "\n  help: " ++ help)

end Diagnostic

end JackToolchain
