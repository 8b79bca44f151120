import JackToolchain.Fault

/-!
# Scanning

Cuts a source text into its lexemes. Between lexemes stand blanks, `//` comments to the end of
the line and `/*` comments to the next `*/`. A word or a number is as long as it can be. The
scanner stops at the first fault, and its result ends with the lexeme for the end of the text.
-/
namespace JackToolchain.Jack

/-- The blanks between lexemes, which are ASCII. -/
def isBlank (c : Char) : Bool :=
  c == ' ' || c == '\t' || c == '\n' || c == '\r' || c == '\x0c'

/-- The characters that start a word. -/
def isWordStart (c : Char) : Bool := c.isAlpha || c == '_'

/-- The characters of a word. -/
def isWordChar (c : Char) : Bool := c.isAlphanum || c == '_'

/-- What the text between two lexemes is in the middle of. -/
inductive Gap where
  | blank
  | lineComment
  /-- A block comment that began at an offset. -/
  | blockComment (start : Nat)

/-- Skips to the next lexeme and returns its offset with the text from there on. -/
def skipGap (offset : Nat) : Gap → List Char → Outcome (Nat × List Char)
  | .blank, '/' :: '/' :: rest => skipGap (offset + 2) .lineComment rest
  | .blank, '/' :: '*' :: rest => skipGap (offset + 2) (.blockComment offset) rest
  | .blank, c :: rest =>
    if isBlank c then skipGap (offset + c.utf8Size) .blank rest else .ok (offset, c :: rest)
  | .lineComment, c :: rest =>
    skipGap (offset + c.utf8Size) (if c = '\n' then .blank else .lineComment) rest
  | .blockComment _, '*' :: '/' :: rest => skipGap (offset + 2) .blank rest
  | .blockComment start, c :: rest => skipGap (offset + c.utf8Size) (.blockComment start) rest
  | .blockComment start, [] => .error ⟨.malformed .unterminatedComment, .byte start⟩
  | _, [] => .ok (offset, [])

/-- What is left after a gap is no longer than the text before it. -/
theorem length_of_skipGap {offset start : Nat} {gap : Gap} {text rest : List Char}
    (skipped : skipGap offset gap text = .ok (start, rest)) : rest.length ≤ text.length := by
  fun_induction skipGap offset gap text <;> grind

/-- The reserved word or the identifier with this spelling. -/
def Lexeme.ofWord (text : String) : Lexeme :=
  match Keyword.ofText? text with
  | some word => .keyword word
  | none => .identifier text

/-- The first byte of a character in UTF-8. -/
def firstByte (c : Char) : UInt8 := (String.utf8EncodeChar c).headD 0

/-- The first character above the largest constant, with its place. -/
def findOutOfRange? (offset : Nat) : List Char → Option (Spanned Char)
  | [] => none
  | c :: rest =>
    if maxConstant < c.toNat then some ⟨c, ⟨offset, offset + c.utf8Size⟩⟩
    else findOutOfRange? (offset + c.utf8Size) rest

/-- Reads a number that starts with the digit `first` at byte `offset`. -/
def readInteger (offset : Nat) (first : Char) (text : List Char) :
    Outcome (Spanned Lexeme × List Char) :=
  let digits := first :: text.takeWhile Char.isDigit
  let rest := text.dropWhile Char.isDigit
  let stop := offset + digits.length
  let value := Nat.ofDigitChars 10 digits 0
  match rest.head?.filter isWordStart with
  | some letter => .error ⟨.malformed (.letterInNumber letter), .byte stop⟩
  | none =>
    if value ≤ maxConstant then .ok (⟨.integer value, ⟨offset, stop⟩⟩, rest)
    else .error ⟨.malformed (.integerTooLarge (String.ofList digits)), ⟨offset, stop⟩⟩

/-- Whether a character may stand in a string literal. -/
def isStringChar (c : Char) : Bool := c != '"' && c != '\n'

/-- Reads a string literal whose opening quote is at byte `offset`. -/
def readString (offset : Nat) (text : List Char) : Outcome (Spanned Lexeme × List Char) :=
  let content := text.takeWhile isStringChar
  match text.dropWhile isStringChar with
  | '"' :: rest =>
    match findOutOfRange? (offset + 1) content with
    | some c => .error ⟨.malformed (.characterOutOfRange c.node), c.span⟩
    | none =>
      .ok (⟨.string (String.ofList content), ⟨offset, offset + utf8Length content + 2⟩⟩, rest)
  | _ => .error ⟨.malformed .unterminatedString, .byte offset⟩

/-- Reads the lexeme that starts with the character `first` at byte `offset`, and returns the
text after it. -/
def readLexeme (offset : Nat) (first : Char) (text : List Char) :
    Outcome (Spanned Lexeme × List Char) :=
  if isWordStart first then
    let word := first :: text.takeWhile isWordChar
    .ok (⟨.ofWord (String.ofList word), ⟨offset, offset + word.length⟩⟩,
      text.dropWhile isWordChar)
  else if first.isDigit then readInteger offset first text
  else if first = '"' then readString offset text
  else
    match Symbol.ofChar? first with
    | some mark => .ok (⟨.symbol mark, .byte offset⟩, text)
    | none => .error ⟨.malformed (.strayByte (firstByte first)), .byte offset⟩

/-- What is left after a lexeme is no longer than the text after its first character. -/
theorem length_of_readLexeme {offset : Nat} {first : Char} {text rest : List Char}
    {token : Spanned Lexeme} (found : readLexeme offset first text = .ok (token, rest)) :
    rest.length ≤ text.length := by
  have dropped (p : Char → Bool) : (text.dropWhile p).length ≤ text.length :=
    (List.dropWhile_sublist p).length_le
  have word := dropped isWordChar
  have digits := dropped Char.isDigit
  have string := dropped isStringChar
  simp only [readLexeme, readInteger, readString] at found
  grind

/-- Adds the lexemes of a text to `done`, which is in reverse; the text starts at byte
`offset`. -/
def scanInto (done : List (Spanned Lexeme)) (offset : Nat) (text : List Char) :
    Outcome (List (Spanned Lexeme)) :=
  match _skipped : skipGap offset .blank text with
  | .error fault => .error fault
  | .ok (start, []) => .ok (⟨.eof, ⟨start, start⟩⟩ :: done).reverse
  | .ok (start, first :: rest) =>
    match _found : readLexeme start first rest with
    | .error fault => .error fault
    | .ok (token, after) => scanInto (token :: done) token.span.stop after
termination_by text.length
decreasing_by
  have gap := length_of_skipGap _skipped
  have shorter := length_of_readLexeme _found
  simp only [List.length_cons] at gap
  omega

/-- The lexemes of a source text, the last of them the end of the text. -/
def scan (source : String) : Outcome (List (Spanned Lexeme)) := scanInto [] 0 source.toList

end JackToolchain.Jack
