import JackToolchain.Proofs.Assembly.Reading
import JackToolchain.Proofs.Jack.Scan
import JackToolchain.Proofs.Jack.Writing

/-!
# Scanning spaced lexemes

Lexemes that can be written, with a space between each two, are scanned as themselves. A lexeme is
read from its text whatever comes behind it, as long as that begins with a space.
-/
namespace JackToolchain.Jack

/-- Nothing, or a text that begins with a space. -/
def Spaced (text : List Char) : Prop := ∀ c ∈ text.head?, c = ' '

section Cuts

variable {p : Char → Bool} {front back : List Char}

/-- A text that is cut where it becomes spaced is cut in front of what is spaced. -/
theorem cut_spaced (all : ∀ c ∈ front, p c = true) (stops : p ' ' = false) (spaced : Spaced back) :
    (front ++ back).takeWhile p = front ∧ (front ++ back).dropWhile p = back := by
  rw [List.takeWhile_append_of_pos all, List.dropWhile_append_of_pos all]
  cases back with
  | nil => exact ⟨List.append_nil _, rfl⟩
  | cons c rest =>
    obtain rfl := spaced c rfl
    rw [List.takeWhile_cons_of_neg (by rw [stops]; decide),
      List.dropWhile_cons_of_neg (by rw [stops]; decide)]
    exact ⟨List.append_nil _, rfl⟩

end Cuts

section Lexemes

variable {behind : List Char}

/-- A word is read from its text. -/
theorem readLexeme_word (offset : Nat) {text : String} (word : isWord text.toList = true)
    (spaced : Spaced behind) :
    ∃ first rest span, text.toList = first :: rest ∧ isWordStart first = true ∧
      readLexeme offset first (rest ++ behind) = .ok (⟨.ofWord text, span⟩, behind) := by
  cases chars : text.toList with
  | nil =>
    rw [chars] at word
    contradiction
  | cons first rest =>
    rw [chars, isWord, Bool.and_eq_true, List.all_eq_true] at word
    obtain ⟨taken, left⟩ := cut_spaced word.2 (by decide) spaced
    refine ⟨first, rest, ⟨offset, offset + (first :: rest).length⟩, rfl, word.1, ?_⟩
    rw [readLexeme, if_pos word.1, taken, left, ← chars]
    dsimp only
    rw [String.ofList_toList]

/-- A number is read from its digits. -/
theorem readLexeme_integer (offset : Nat) {value : Nat} (small : value ≤ maxConstant)
    (spaced : Spaced behind) :
    ∃ first rest span, value.repr.toList = first :: rest ∧ first.isDigit = true ∧
      readLexeme offset first (rest ++ behind) = .ok (⟨.integer value, span⟩, behind) := by
  have digits (c : Char) (member : c ∈ value.repr.toList) : c.isDigit = true :=
    Assembly.isDigit_of_mem_repr member
  have number : Nat.ofDigitChars 10 value.repr.toList 0 = value := by
    rw [Assembly.toList_repr, Nat.ofDigitChars_ten_toDigits]
  cases chars : value.repr.toList with
  | nil =>
    rw [Assembly.toList_repr] at chars
    exact absurd chars Nat.toDigits_ne_nil
  | cons first rest =>
    rw [chars] at digits number
    have digit := digits first List.mem_cons_self
    obtain ⟨taken, left⟩ := cut_spaced (fun c member => digits c (List.mem_cons_of_mem _ member))
      (by decide) spaced
    have last : behind.head?.filter isWordStart = none := by
      cases behind with
      | nil => rfl
      | cons c rest =>
        obtain rfl := spaced c rfl
        rfl
    have noWord : isWordStart first ≠ true := fun starts => by
      rw [isDigit_of_isWordStart starts] at digit
      contradiction
    refine ⟨first, rest, ⟨offset, offset + (first :: rest).length⟩, rfl, digit, ?_⟩
    rw [readLexeme, if_neg noWord, if_pos digit, readInteger, taken, left, last]
    dsimp only
    rw [number, if_pos small]

/-- No character of a text is out of range. -/
theorem findOutOfRange?_eq_none {offset : Nat} {text : List Char}
    (small : ∀ c ∈ text, c.toNat ≤ maxConstant) :
    findOutOfRange? offset text = none := by
  induction text generalizing offset with
  | nil => rfl
  | cons c rest ih =>
    obtain ⟨own, others⟩ := List.forall_mem_cons.mp small
    rw [findOutOfRange?, if_neg (Nat.not_lt.mpr own), ih others]

/-- A string literal is read from its text. -/
theorem readLexeme_string (offset : Nat) {content : String}
    (writable : ∀ c ∈ content.toList, isStringChar c = true ∧ c.toNat ≤ maxConstant) :
    readLexeme offset '"' (content.toList ++ '"' :: behind) =
      .ok (⟨.string content, ⟨offset, offset + utf8Length content.toList + 2⟩⟩, behind) := by
  have inside : ∀ c ∈ content.toList, isStringChar c = true := fun c member => (writable c member).1
  have small : findOutOfRange? (offset + 1) content.toList = none :=
    findOutOfRange?_eq_none fun c member => (writable c member).2
  rw [readLexeme, if_neg (by decide), if_neg (by decide), if_pos rfl, readString,
    List.takeWhile_append_of_pos inside, List.dropWhile_append_of_pos inside,
    List.takeWhile_cons_of_neg (by decide), List.dropWhile_cons_of_neg (by decide),
    List.append_nil, small, String.ofList_toList]
  rfl

/-- A mark is read from its character. -/
theorem readLexeme_symbol (offset : Nat) (mark : Symbol) :
    readLexeme offset mark.char behind = .ok (⟨.symbol mark, .byte offset⟩, behind) := by
  rw [readLexeme]
  cases mark <;> rfl

/-- A reserved word is a word. -/
theorem isWord_keyword (word : Keyword) : isWord word.text.toList = true := by
  cases word <;> decide

/-- A character of a kind without blanks and the slash is no blank and starts no comment. -/
theorem starts_of_kind {kind : Char → Bool} {c : Char} (own : kind c = true)
    (others : [' ', '\t', '\n', '\r', '\x0c', '/'].all (fun other => !kind other) = true) :
    isBlank c = false ∧ c ≠ '/' := by
  have ne (other : Char) (member : other ∈ [' ', '\t', '\n', '\r', '\x0c', '/']) : c ≠ other := by
    rintro rfl
    have none := List.all_eq_true.mp others c member
    rw [own] at none
    contradiction
  simp only [List.forall_mem_cons] at ne
  obtain ⟨space, tab, newline, carriage, feed, slash, -⟩ := ne
  simp [isBlank, space, tab, newline, carriage, feed, slash]

/-- A text that starts neither with a blank nor with a comment has no gap in front. -/
theorem skipGap_self {offset : Nat} {first : Char} {rest : List Char}
    (blank : isBlank first = false) (bare : first ≠ '/') :
    skipGap offset .blank (first :: rest) = .ok (offset, first :: rest) := by
  rw [skipGap]
  · rw [blank]
    rfl
  · exact fun _ same => absurd same bare
  · exact fun _ same => absurd same bare

/-- A lexeme is read from the front of a spaced text. -/
theorem read_text {lexeme : Lexeme} (writable : lexeme.Writable) (offset : Nat)
    (spaced : Spaced behind) :
    ∃ first rest span, lexeme.text.toList ++ behind = first :: rest ∧
      skipGap offset .blank (first :: rest) = .ok (offset, first :: rest) ∧
      readLexeme offset first rest = .ok (⟨lexeme, span⟩, behind) := by
  cases lexeme with
  | keyword word =>
    obtain ⟨first, rest, span, chars, starts, found⟩ :=
      readLexeme_word offset (isWord_keyword word) spaced
    obtain ⟨blank, bare⟩ := starts_of_kind starts (by decide)
    rw [Lexeme.ofWord, Keyword.ofText?_text] at found
    exact ⟨first, rest ++ behind, span, by rw [Lexeme.text, chars]; rfl, skipGap_self blank bare,
      found⟩
  | symbol mark =>
    refine ⟨mark.char, behind, _, ?_, ?_, readLexeme_symbol offset mark⟩
    · cases mark <;> rfl
    · cases behind with
      | nil => cases mark <;> rfl
      | cons c rest =>
        obtain rfl := spaced c rfl
        cases mark <;> rfl
  | integer value =>
    obtain ⟨first, rest, span, chars, digit, found⟩ :=
      readLexeme_integer offset writable spaced
    obtain ⟨blank, bare⟩ := starts_of_kind digit (by decide)
    exact ⟨first, rest ++ behind, span, by rw [Lexeme.text, chars]; rfl, skipGap_self blank bare,
      found⟩
  | string content =>
    refine ⟨'"', _, _, ?_, skipGap_self (by decide) (by decide),
      readLexeme_string offset writable⟩
    rw [Lexeme.text, String.toList_append, String.toList_append]
    change '"' :: content.toList ++ ['"'] ++ behind = _
    rw [List.append_assoc, List.cons_append, List.singleton_append]
  | identifier name =>
    obtain ⟨word, free⟩ := writable
    obtain ⟨first, rest, span, chars, starts, found⟩ :=
      readLexeme_word offset word spaced
    obtain ⟨blank, bare⟩ := starts_of_kind starts (by decide)
    rw [Lexeme.ofWord, free] at found
    exact ⟨first, rest ++ behind, span, by rw [Lexeme.text, chars]; rfl, skipGap_self blank bare,
      found⟩
  | eof => exact writable.elim

end Lexemes

/-- A space is skipped. -/
theorem skipGap_space (offset : Nat) (text : List Char) :
    skipGap offset .blank (' ' :: text) = skipGap (offset + 1) .blank text := by
  rw [skipGap]
  · rfl
  · exact fun _ same => absurd same (by decide)
  · exact fun _ same => absurd same (by decide)

/-- A scan takes a lexeme that is there. -/
theorem scanInto_step {done : List (Spanned Lexeme)} {offset start : Nat} {first : Char}
    {text rest after : List Char} {token : Spanned Lexeme}
    (skipped : skipGap offset .blank text = .ok (start, first :: rest))
    (found : readLexeme start first rest = .ok (token, after)) :
    scanInto done offset text = scanInto (token :: done) token.span.stop after := by
  rw [scanInto]
  split
  · rename_i other
    cases skipped.symm.trans other
  · rename_i other
    cases skipped.symm.trans other
  · rename_i other
    rw [skipped] at other
    obtain ⟨rfl, same⟩ := Prod.mk.inj (Except.ok.inj other)
    obtain ⟨rfl, rfl⟩ := List.cons.inj same
    split
    · rename_i failed
      cases found.symm.trans failed
    · rename_i again
      rw [found] at again
      obtain ⟨rfl, rfl⟩ := Prod.mk.inj (Except.ok.inj again)
      rfl

/-- A scan ends with a text. -/
theorem scanInto_last {done : List (Spanned Lexeme)} {offset start : Nat} {text : List Char}
    (skipped : skipGap offset .blank text = .ok (start, [])) :
    scanInto done offset text = .ok (⟨.eof, ⟨start, start⟩⟩ :: done).reverse := by
  rw [scanInto]
  split
  · rename_i other
    cases skipped.symm.trans other
  · rename_i other
    obtain ⟨rfl, -⟩ := Prod.mk.inj (Except.ok.inj (skipped.symm.trans other))
    rfl
  · rename_i other
    cases skipped.symm.trans other

/-- A scan of nothing. -/
theorem scanInto_nil (done : List (Spanned Lexeme)) (offset : Nat) :
    scanInto done offset [] = .ok (⟨.eof, ⟨offset, offset⟩⟩ :: done).reverse :=
  scanInto_last rfl

/-- Lexemes with a space in front of each. -/
def spacedBehind (lexemes : List Lexeme) : List Char :=
  lexemes.flatMap fun lexeme => ' ' :: lexeme.text.toList

/-- What comes behind a lexeme is spaced. -/
theorem spaced_behind (lexemes : List Lexeme) : Spaced (spacedBehind lexemes) := by
  cases lexemes with
  | nil => exact fun c none => by contradiction
  | cons lexeme rest =>
    rintro _ ⟨rfl⟩
    rfl

/-- Lexemes with a space in front of each are scanned as themselves. -/
theorem scanInto_spaced {lexemes : List Lexeme} (writable : ∀ lexeme ∈ lexemes, lexeme.Writable)
    (done : List (Spanned Lexeme)) (offset : Nat) :
    ∃ tokens, scanInto done offset (spacedBehind lexemes) = .ok tokens ∧
      tokens.map Spanned.node = (done.map Spanned.node).reverse ++ lexemes ++ [.eof] := by
  induction lexemes generalizing done offset with
  | nil => exact ⟨_, scanInto_nil done offset, by simp⟩
  | cons lexeme rest ih =>
    obtain ⟨own, others⟩ := List.forall_mem_cons.mp writable
    obtain ⟨first, text, span, chars, skipped, found⟩ :=
      read_text own (offset + 1) (spaced_behind rest)
    have skipped : skipGap offset .blank (spacedBehind (lexeme :: rest)) =
        .ok (offset + 1, first :: text) := by
      rw [spacedBehind, List.flatMap_cons, List.cons_append, skipGap_space]
      rw [spacedBehind] at chars
      rw [chars, skipped]
    obtain ⟨tokens, scanned, nodes⟩ := ih others (⟨lexeme, span⟩ :: done) span.stop
    refine ⟨tokens, (scanInto_step skipped found).trans scanned, ?_⟩
    rw [nodes, List.map_cons, List.reverse_cons]
    simp

/-- A first lexeme in front of lexemes with a space in front of each. -/
theorem toList_spacedText (lexeme : Lexeme) (rest : List Lexeme) :
    (spacedText (lexeme :: rest)).toList = lexeme.text.toList ++ spacedBehind rest := by
  rw [spacedText, String.toList_intercalate]
  induction rest generalizing lexeme with
  | nil => simp [spacedBehind]
  | cons second rest ih =>
    have next := ih second
    rw [List.map_cons, List.map_cons] at next
    rw [List.map_cons, List.map_cons, List.map_cons, List.map_cons, List.intercalate_cons_cons,
      next]
    simp [spacedBehind]

/-- Lexemes with a space between each two are scanned as themselves. -/
theorem scan_spacedText {lexemes : List Lexeme}
    (writable : ∀ lexeme ∈ lexemes, lexeme.Writable) :
    ∃ tokens, scan (spacedText lexemes) = .ok tokens ∧
      tokens.map Spanned.node = lexemes ++ [.eof] := by
  cases lexemes with
  | nil => exact ⟨_, scanInto_nil [] 0, rfl⟩
  | cons lexeme rest =>
    obtain ⟨own, others⟩ := List.forall_mem_cons.mp writable
    obtain ⟨first, text, span, same, skipped, found⟩ := read_text own 0 (spaced_behind rest)
    obtain ⟨tokens, scanned, nodes⟩ := scanInto_spaced others [⟨lexeme, span⟩] span.stop
    refine ⟨tokens, ?_, nodes⟩
    rw [scan, toList_spacedText, same]
    exact (scanInto_step skipped found).trans scanned

end JackToolchain.Jack
