/-!
# Places in a source text

A span is a range of byte offsets into one source text. Values read from a text carry the span
they were read from, so a fault found much later still points at the text that caused it.
-/
namespace JackToolchain

/-- A range of byte offsets: `start` is its first byte and `stop` the byte after its last. -/
structure Span where
  /-- Offset of the first byte. -/
  start : Nat
  /-- Offset of the byte after the last one. -/
  stop : Nat
deriving DecidableEq, Inhabited

namespace Span

/-- The span of values that no source text holds. -/
def nowhere : Span := ⟨0, 0⟩

/-- The span of one byte. -/
def byte (offset : Nat) : Span := ⟨offset, offset + 1⟩

/-- The smallest span that holds both. -/
def merge (left right : Span) : Span :=
  ⟨min left.start right.start, max left.stop right.stop⟩

end Span

/-- The number of bytes that the characters take in UTF-8. -/
def utf8Length (text : List Char) : Nat :=
  text.foldl (fun size c => size + c.utf8Size) 0

/-- Adds to `found` the line ends among the first `bytes` bytes of a text. -/
def countLineEnds (found bytes : Nat) : List Char → Nat
  | [] => found
  | c :: rest =>
    if bytes = 0 then found
    else countLineEnds (if c = '\n' then found + 1 else found) (bytes - c.utf8Size) rest

/-- The line of `source` in which the span starts, counted from one. -/
def Span.lineIn (span : Span) (source : String) : Nat :=
  countLineEnds 0 span.start source.toList + 1

/-- A value with the place it was read from. -/
structure Spanned (α : Type) where
  /-- The value. -/
  node : α
  /-- Where it stands in its source text. -/
  span : Span
deriving DecidableEq

/-- A name as it was written. -/
abbrev Name := Spanned String

end JackToolchain
