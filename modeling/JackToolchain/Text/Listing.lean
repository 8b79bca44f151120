import JackToolchain.Span
import JackToolchain.Text.Blank

/-!
# Listings

A listing is a text with one item to a line. A comment runs from the first `//` of a line to
its end, white space around an item does not count, and a line that is blank without its
comment holds no item. Virtual-machine text and assembly text are both listings.
-/
namespace JackToolchain.Text

/-- The line up to its first `//`. -/
def uncommented : List Char → List Char
  | [] => []
  | '/' :: '/' :: _ => []
  | c :: rest => c :: uncommented rest

/-- Cuts the rest of a text at its line ends and adds the lines, each with the offset of its
first byte, to `done`, which is in reverse. The line that has begun starts at `start` and
`current` holds its characters in reverse. -/
def linesInto (done : List (Nat × List Char)) (start : Nat) (current : List Char) :
    List Char → List (Nat × List Char)
  | [] => ((start, current.reverse) :: done).reverse
  | c :: rest =>
    if c = '\n' then
      linesInto ((start, current.reverse) :: done) (start + utf8Length current + 1) [] rest
    else linesInto done start (c :: current) rest

/-- The lines of a text, each with the offset of its first byte. -/
def lines (text : List Char) : List (Nat × List Char) := linesInto [] 0 [] text

/-- The item on a line that starts at byte `start`, if it holds one. -/
def lineItem? (start : Nat) (line : List Char) : Option (Spanned String) :=
  let code := uncommented line
  let body := trim code
  if body.isEmpty then none
  else
    let first := start + utf8Length (code.takeWhile isBlank)
    some ⟨String.ofList body, ⟨first, first + utf8Length body⟩⟩

/-- The items of a listing in order, each with its place. -/
def items (source : String) : List (Spanned String) :=
  (lines source.toList).filterMap fun (start, line) => lineItem? start line

end JackToolchain.Text
