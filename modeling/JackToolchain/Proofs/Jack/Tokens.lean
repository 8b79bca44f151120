import JackToolchain.Proofs.Jack.Scan
import JackToolchain.Proofs.Text.Covering

/-!
# What lexemes are written as

The scanner takes a lexeme from the front of a text. What it takes writes the lexeme, which is the
name itself for an identifier, and the span of the lexeme is as long as what is taken.
-/
namespace JackToolchain.Jack

/-- The texts that write a lexeme. A number may have zeros in front; every other lexeme has one
spelling. -/
def Lexeme.WrittenAs (text : String) (lexeme : Lexeme) : Prop :=
  match lexeme with
  | .integer value =>
    text.toList ≠ [] ∧ text.toList.all Char.isDigit = true ∧
      Nat.ofDigitChars 10 text.toList 0 = value
  | .eof => text = ""
  | .keyword _ | .symbol _ | .string _ | .identifier _ => text = lexeme.text

/-- A lexeme that stands in a text where its span says. -/
def StandsIn (source : String) (token : Spanned Lexeme) : Prop :=
  ∃ text, token.node.WrittenAs text ∧ token.span.Covers source text

section Lexemes

variable {offset : Nat} {first : Char} {text rest : List Char} {token : Spanned Lexeme}

/-- A text of ASCII has a byte for each character. -/
theorem utf8Length_of_ascii (ascii : ∀ c ∈ text, c.toNat ≤ 127) :
    utf8Length text = text.length := by
  induction text with
  | nil => rfl
  | cons c rest ih =>
    have size : c.utf8Size = 1 := Char.utf8Size_eq_one_iff.mpr (ascii c List.mem_cons_self)
    rw [utf8Length_cons, size, ih fun other member => ascii other (List.mem_cons_of_mem _ member),
      List.length_cons, Nat.add_comm]

/-- The characters of words are ASCII. -/
theorem ascii_of_isWordChar {c : Char} (own : isWordChar c = true) : c.toNat ≤ 127 := by
  rw [isWordChar, Char.isAlphanum, Bool.or_eq_true, Bool.or_eq_true, beq_iff_eq] at own
  rcases own with (letter | digit) | rfl
  · have range := Text.toNat_of_isAlpha letter
    omega
  · have range := Text.toNat_of_isDigit digit
    omega
  · decide

/-- The start of a word is one of its characters. -/
theorem isWordChar_of_isWordStart {c : Char} (starts : isWordStart c = true) :
    isWordChar c = true := by
  rw [isWordStart, Bool.or_eq_true] at starts
  rw [isWordChar, Char.isAlphanum, Bool.or_eq_true, Bool.or_eq_true]
  exact starts.imp_left .inl

/-- The longest front with a property and what is behind it. -/
theorem split_takeWhile (own : Char → Bool) (first : Char) (text : List Char) :
    first :: text = (first :: text.takeWhile own) ++ text.dropWhile own := by
  rw [List.cons_append, List.takeWhile_append_dropWhile]

/-- The word or the reserved word with a spelling is written by it. -/
theorem writtenAs_ofWord (text : String) : (Lexeme.ofWord text).WrittenAs text := by
  unfold Lexeme.ofWord
  cases found : Keyword.ofText? text with
  | none => rfl
  | some word =>
    have same := List.find?_some found
    exact (beq_iff_eq.mp same).symm

/-- A lexeme that is read stands at the front of the text, and its span is as long as its text. -/
theorem split_of_readLexeme (found : readLexeme offset first text = .ok (token, rest)) :
    ∃ own, first :: text = own ++ rest ∧ token.node.WrittenAs (String.ofList own) ∧
      token.span = ⟨offset, offset + utf8Length own⟩ := by
  cases lexemeAt_of_readLexeme found with
  | word starts =>
    have ascii : ∀ c ∈ first :: text.takeWhile isWordChar, c.toNat ≤ 127 := by
      refine List.forall_mem_cons.mpr ⟨ascii_of_isWordChar (isWordChar_of_isWordStart starts), ?_⟩
      exact fun c member => ascii_of_isWordChar (List.all_eq_true.mp List.all_takeWhile c member)
    refine ⟨_, split_takeWhile isWordChar first text, writtenAs_ofWord _, ?_⟩
    rw [utf8Length_of_ascii ascii]
  | integer digit alone small =>
    have digits : (first :: text.takeWhile Char.isDigit).all Char.isDigit = true := by
      rw [List.all_cons, digit, List.all_takeWhile]
      rfl
    have ascii : ∀ c ∈ first :: text.takeWhile Char.isDigit, c.toNat ≤ 127 := by
      intro c member
      have range := Text.toNat_of_isDigit (List.all_eq_true.mp digits c member)
      omega
    refine ⟨_, split_takeWhile Char.isDigit first text, ?_, ?_⟩
    · rw [Lexeme.WrittenAs, String.toList_ofList]
      exact ⟨List.cons_ne_nil _ _, digits, rfl⟩
    · rw [utf8Length_of_ascii ascii]
  | string quote closed inRange =>
    subst quote
    have whole : text = text.takeWhile isStringChar ++ '"' :: rest := by
      rw [← closed, List.takeWhile_append_dropWhile]
    refine ⟨'"' :: (text.takeWhile isStringChar ++ ['"']), ?_, ?_, ?_⟩
    · rw [List.cons_append, List.append_assoc, List.singleton_append, ← whole]
    · change _ = _
      rw [← String.toList_inj]
      simp [Lexeme.text]
    · have marks : utf8Length ('"' :: (text.takeWhile isStringChar ++ ['"'])) =
          utf8Length (text.takeWhile isStringChar) + 2 := by
        rw [utf8Length_cons, utf8Length_append, Nat.add_comm]
        rfl
      rw [marks, ← Nat.add_assoc]
  | symbol mark same =>
    subst same
    have size : utf8Length [mark.char] = 1 := by cases mark <;> rfl
    exact ⟨[mark.char], rfl, rfl, by rw [size]; rfl⟩

end Lexemes

end JackToolchain.Jack
