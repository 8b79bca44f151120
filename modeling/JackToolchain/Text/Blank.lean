/-!
# White space

The Unicode property `White_Space`, and the two operations on lines that rest on it: dropping
the white space around a text, and cutting a text into its words. Both keep to lists of
characters, so that a word of a text is literally a part of its list.
-/
namespace JackToolchain.Text

/-- The characters with the Unicode property `White_Space`. -/
def isBlank (c : Char) : Bool :=
  let n := c.toNat
  (9 ≤ n && n ≤ 13) || n == 0x20 || n == 0x85 || n == 0xA0 || n == 0x1680 ||
    (0x2000 ≤ n && n ≤ 0x200A) || n == 0x2028 || n == 0x2029 || n == 0x202F || n == 0x205F ||
    n == 0x3000

/-- The text without the white space at its front. -/
def trimStart (text : List Char) : List Char := text.dropWhile isBlank

/-- The text without the white space at its end. -/
def trimEnd (text : List Char) : List Char := (text.reverse.dropWhile isBlank).reverse

/-- The text without the white space on either side. -/
def trim (text : List Char) : List Char := trimEnd (trimStart text)

/-- Cuts the rest of a text into words, where `current` holds, in reverse, the characters of
the word that has begun. -/
def wordsFrom (current : List Char) : List Char → List (List Char)
  | [] => if current.isEmpty then [] else [current.reverse]
  | c :: rest =>
    if isBlank c then
      if current.isEmpty then wordsFrom [] rest else current.reverse :: wordsFrom [] rest
    else wordsFrom (c :: current) rest

/-- The words of a text: its longest runs without white space, in order. -/
def words (text : List Char) : List (List Char) := wordsFrom [] text

/-- The text without the quotation marks on either side. -/
def trimQuotes (text : List Char) : List Char :=
  ((text.dropWhile (· == '"')).reverse.dropWhile (· == '"')).reverse

end JackToolchain.Text
