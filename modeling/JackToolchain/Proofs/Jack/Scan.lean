import JackToolchain.Proofs.Jack.Reader
import JackToolchain.Proofs.Text.Listing

/-!
# What the scanner makes

A scan finds a lexeme behind what is skipped and goes on behind the lexeme: `Scans` says so, and
what holds of the lexemes of a text is shown by induction on it. They can be written, but for the
end of the text, and they fit the text: identifiers are words, numbers and characters of string
literals are constants, and there is at most one lexeme for each character besides the end of the
text.
-/
namespace JackToolchain.Jack

/-- Lexemes that a source text can hold: a word that is not reserved, a number in range, a string
literal without a quote or a line end. -/
def Lexeme.Writable : Lexeme → Prop
  | .identifier name => isWord name.toList = true ∧ Keyword.ofText? name = none
  | .integer value => value ≤ maxConstant
  | .string content => ∀ c ∈ content.toList, isStringChar c = true ∧ c.toNat ≤ maxConstant
  | .keyword _ | .symbol _ => True
  | .eof => False

instance (lexeme : Lexeme) : Decidable lexeme.Writable :=
  match lexeme with
  | .identifier name =>
    inferInstanceAs (Decidable (isWord name.toList = true ∧ Keyword.ofText? name = none))
  | .integer value => inferInstanceAs (Decidable (value ≤ maxConstant))
  | .string content =>
    -- Only the characters of the literal are asked, however many others there are.
    List.decidableBAll (fun c => isStringChar c = true ∧ c.toNat ≤ maxConstant) content.toList
  | .keyword _ | .symbol _ => isTrue trivial
  | .eof => isFalse id

/-- What is read as one lexeme from its first character on, and what is left behind it. -/
inductive LexemeAt (offset : Nat) (first : Char) (text : List Char) :
    Spanned Lexeme → List Char → Prop where
  | word (starts : isWordStart first = true) :
      LexemeAt offset first text
        ⟨.ofWord (String.ofList (first :: text.takeWhile isWordChar)),
          ⟨offset, offset + (first :: text.takeWhile isWordChar).length⟩⟩
        (text.dropWhile isWordChar)
  | integer (digit : first.isDigit = true)
      (alone : (text.dropWhile Char.isDigit).head?.filter isWordStart = none)
      (small : Nat.ofDigitChars 10 (first :: text.takeWhile Char.isDigit) 0 ≤ maxConstant) :
      LexemeAt offset first text
        ⟨.integer (Nat.ofDigitChars 10 (first :: text.takeWhile Char.isDigit) 0),
          ⟨offset, offset + (first :: text.takeWhile Char.isDigit).length⟩⟩
        (text.dropWhile Char.isDigit)
  | string {rest : List Char} (quote : first = '"')
      (closed : text.dropWhile isStringChar = '"' :: rest)
      (inRange : findOutOfRange? (offset + 1) (text.takeWhile isStringChar) = none) :
      LexemeAt offset first text
        ⟨.string (String.ofList (text.takeWhile isStringChar)),
          ⟨offset, offset + utf8Length (text.takeWhile isStringChar) + 2⟩⟩ rest
  | symbol (mark : Symbol) (same : first = mark.char) :
      LexemeAt offset first text ⟨.symbol mark, .byte offset⟩ text

section Lexemes

variable {limit offset : Nat} {first : Char} {text rest : List Char} {token : Spanned Lexeme}

/-- The start of a word is no digit. -/
theorem isDigit_of_isWordStart {c : Char} (starts : isWordStart c = true) : c.isDigit = false := by
  rw [isWordStart, Bool.or_eq_true, beq_iff_eq] at starts
  rcases starts with alpha | rfl
  · rw [← Bool.not_eq_true]
    intro digit
    have letters := Text.toNat_of_isAlpha alpha
    have digits := Text.toNat_of_isDigit digit
    omega
  · decide

/-- A word is read as long as it can be. -/
theorem isWord_takeWhile (starts : isWordStart first = true) :
    isWord (first :: text.takeWhile isWordChar) = true := by
  rw [isWord, starts, List.all_takeWhile]
  rfl

/-- A text without a character out of range has constants as characters. -/
theorem le_of_findOutOfRange? (none : findOutOfRange? offset text = none) :
    ∀ c ∈ text, c.toNat ≤ maxConstant := by
  induction text generalizing offset with
  | nil => exact fun c member => by contradiction
  | cons c rest ih =>
    rw [findOutOfRange?] at none
    split at none
    · contradiction
    · rename_i small
      exact List.forall_mem_cons.mpr ⟨by omega, ih none⟩

/-- A lexeme is read as a word, a number, a string literal or a mark. -/
theorem lexemeAt_of_readLexeme (found : readLexeme offset first text = .ok (token, rest)) :
    LexemeAt offset first text token rest := by
  unfold readLexeme at found
  split at found
  · rename_i starts
    obtain ⟨rfl, rfl⟩ := Prod.mk.inj (Except.ok.inj found)
    exact .word starts
  · split at found
    · rename_i digit
      unfold readInteger at found
      dsimp only at found
      split at found
      · contradiction
      · rename_i alone
        split at found
        · rename_i small
          obtain ⟨rfl, rfl⟩ := Prod.mk.inj (Except.ok.inj found)
          exact .integer digit alone small
        · contradiction
    · split at found
      · rename_i quote
        unfold readString at found
        dsimp only at found
        split at found
        · rename_i closed
          split at found
          · contradiction
          · rename_i inRange
            obtain ⟨rfl, rfl⟩ := Prod.mk.inj (Except.ok.inj found)
            exact .string quote closed inRange
        · contradiction
      · split at found
        · rename_i mark known
          obtain ⟨rfl, rfl⟩ := Prod.mk.inj (Except.ok.inj found)
          have same := List.find?_some known
          exact .symbol mark (beq_iff_eq.mp same).symm
        · contradiction

/-- A lexeme of a text can be written, and a string literal is no longer than the text. -/
theorem writable_of_readLexeme (found : readLexeme offset first text = .ok (token, rest)) :
    token.node.Writable ∧
      ∀ content, token.node = .string content → content.length ≤ text.length := by
  cases lexemeAt_of_readLexeme found with
  | word starts =>
    change (Lexeme.ofWord _).Writable ∧ ∀ content, Lexeme.ofWord _ = .string content → _
    unfold Lexeme.ofWord
    split
    · exact ⟨trivial, by simp⟩
    · rename_i free
      refine ⟨⟨?_, free⟩, by simp⟩
      rw [String.toList_ofList]
      exact isWord_takeWhile starts
  | integer digit alone small => exact ⟨small, by simp⟩
  | string quote closed inRange =>
    refine ⟨fun c member => ?_, ?_⟩
    · rw [String.toList_ofList] at member
      exact ⟨List.all_eq_true.mp List.all_takeWhile c member,
        le_of_findOutOfRange? inRange c member⟩
    · rintro _ ⟨rfl⟩
      rw [String.length_ofList]
      exact (List.takeWhile_sublist (l := text) isStringChar).length_le
  | symbol mark same => exact ⟨trivial, by simp⟩

/-- A lexeme that can be written fits a text that is as long as a string literal. -/
theorem Lexeme.Writable.fits {lexeme : Lexeme} (writable : lexeme.Writable)
    (short : ∀ content, lexeme = .string content → content.length ≤ limit) :
    lexeme.Fits limit := by
  cases lexeme with
  | identifier name => exact writable.1
  | integer value => exact writable
  | string content => exact ⟨short content rfl, fun c member => (writable c member).2⟩
  | keyword word => trivial
  | symbol mark => trivial
  | eof => trivial

end Lexemes

/-! ## Scans -/

/-- The lexemes that a scan finds in a text which starts at byte `offset`. -/
inductive Scans : Nat → List Char → List (Spanned Lexeme) → Prop where
  | last {offset start : Nat} {text : List Char}
      (skipped : skipGap offset .blank text = .ok (start, [])) :
      Scans offset text [⟨.eof, ⟨start, start⟩⟩]
  | next {offset start : Nat} {first : Char} {text rest after : List Char}
      {token : Spanned Lexeme} {tokens : List (Spanned Lexeme)}
      (skipped : skipGap offset .blank text = .ok (start, first :: rest))
      (found : readLexeme start first rest = .ok (token, after))
      (others : Scans token.span.stop after tokens) : Scans offset text (token :: tokens)

section Scans

variable {limit offset : Nat} {text : List Char} {tokens : List (Spanned Lexeme)}

/-- What a scan adds to the lexemes that are done are those of the text. -/
theorem scans_of_scanInto {done result : List (Spanned Lexeme)}
    (scanned : scanInto done offset text = .ok result) :
    ∃ tokens, result = done.reverse ++ tokens ∧ Scans offset text tokens := by
  fun_induction scanInto done offset text with
  | case1 done offset text fault skipped => contradiction
  | case2 done offset text last skipped =>
    obtain rfl := Except.ok.inj scanned
    exact ⟨_, List.reverse_cons, .last skipped⟩
  | case3 done offset text next first rest skipped fault found => contradiction
  | case4 done offset text next first rest skipped token after found ih =>
    obtain ⟨tokens, rfl, scans⟩ := ih scanned
    refine ⟨token :: tokens, ?_, .next skipped found scans⟩
    rw [List.reverse_cons, List.append_assoc, List.singleton_append]

/-- The lexemes of a text are found by a scan from its start. -/
theorem scans_of_scan {source : String} (scanned : scan source = .ok tokens) :
    Scans 0 source.toList tokens := by
  obtain ⟨found, rfl, scans⟩ := scans_of_scanInto scanned
  exact scans

/-- The lexemes of a text fit it, and there are not more than characters. -/
theorem Scans.fits (scans : Scans offset text tokens) (short : text.length ≤ limit) :
    (∀ token ∈ tokens, token.node.Fits limit) ∧ tokens.length ≤ text.length + 1 := by
  induction scans with
  | last skipped => exact ⟨List.forall_mem_singleton.mpr trivial, Nat.succ_le_succ (Nat.zero_le _)⟩
  | next skipped found others ih =>
    have gap := length_of_skipGap skipped
    have shorter := length_of_readLexeme found
    rw [List.length_cons] at gap
    obtain ⟨writable, part⟩ := writable_of_readLexeme found
    obtain ⟨fits, few⟩ := ih (by omega)
    refine ⟨List.forall_mem_cons.mpr ⟨writable.fits fun content same => ?_, fits⟩, ?_⟩
    · have own := part content same
      omega
    · rw [List.length_cons]
      omega

/-- The lexemes of a text can be written, but for the end of the text. -/
theorem Scans.writable (scans : Scans offset text tokens) :
    ∃ front, tokens.map Spanned.node = front ++ [.eof] ∧ ∀ lexeme ∈ front, lexeme.Writable := by
  induction scans with
  | last skipped => exact ⟨[], rfl, fun _ member => by contradiction⟩
  | @next _ _ _ _ _ _ token _ skipped found others ih =>
    obtain ⟨front, nodes, writable⟩ := ih
    exact ⟨token.node :: front, by rw [List.map_cons, nodes, List.cons_append],
      List.forall_mem_cons.mpr ⟨(writable_of_readLexeme found).1, writable⟩⟩

end Scans

/-- The lexemes of a text can be written, but for the end of the text. -/
theorem writable_of_scan {source : String} {lexemes : List (Spanned Lexeme)}
    (scanned : scan source = .ok lexemes) :
    ∃ front, lexemes.map Spanned.node = front ++ [.eof] ∧ ∀ lexeme ∈ front, lexeme.Writable :=
  (scans_of_scan scanned).writable

/-- A text ends with the only lexeme for its end. -/
theorem ends_of_scan {source : String} {lexemes : List (Spanned Lexeme)}
    (scanned : scan source = .ok lexemes) :
    ∃ front, lexemes.map Spanned.node = front ++ [.eof] ∧ .eof ∉ front := by
  obtain ⟨front, nodes, writable⟩ := writable_of_scan scanned
  exact ⟨front, nodes, fun member => writable .eof member⟩

/-- The lexemes of a text fit it. -/
theorem fits_of_scan {source : String} {lexemes : List (Spanned Lexeme)}
    (scanned : scan source = .ok lexemes) : (Cursor.mk lexemes .nowhere).Fits source.length := by
  obtain ⟨fits, few⟩ := (scans_of_scan scanned).fits (Nat.le_of_eq String.length_toList)
  rw [String.length_toList] at few
  exact ⟨few, fits⟩

end JackToolchain.Jack
