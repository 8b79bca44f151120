/-!
# Numerals

Decimal numerals are printed by `Nat.repr` and read here; a machine word is printed in binary,
and a character's code in hexadecimal.
-/
namespace JackToolchain.Text

/-- The numbers of 16 bits are those below this one. -/
def bound16 : Nat := 65536

/-- The numbers of 32 bits are those below this one. -/
def bound32 : Nat := 4294967296

/-- The numbers of 64 bits are those below this one. -/
def bound64 : Nat := 18446744073709551616

/-- Reads a text of ASCII digits as the number it writes; an empty text writes none. -/
def readDecimal? (digits : List Char) : Option Nat :=
  if digits ≠ [] ∧ digits.all Char.isDigit then some (Nat.ofDigitChars 10 digits 0) else none

/-- A number's decimal numeral is read as that number. -/
theorem readDecimal?_toDigits (n : Nat) : readDecimal? (Nat.toDigits 10 n) = some n := by
  have digits : (Nat.toDigits 10 n).all Char.isDigit = true :=
    List.all_eq_true.mpr fun c member =>
      Nat.isDigit_of_mem_toDigits (by decide) (by decide) member
  simp [readDecimal?, Nat.toDigits_ne_nil, digits, Nat.ofDigitChars_toDigits]

/-- Writes a number in upper-case hexadecimal with at least four digits. -/
def hexadecimal (n : Nat) : String :=
  let digits := (Nat.toDigits 16 n).map Char.toUpper
  String.ofList (List.replicate (4 - digits.length) '0' ++ digits)

/-- The lowest `width` binary digits of a number, highest first. -/
def binary (width n : Nat) : String :=
  String.ofList ((List.range width).map fun place =>
    if n.testBit (width - 1 - place) then '1' else '0')

end JackToolchain.Text
