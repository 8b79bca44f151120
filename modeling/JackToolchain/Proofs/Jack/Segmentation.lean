import JackToolchain.Proofs.Jack.Tokens

/-!
# Cutting a text into lexemes

A scan loses nothing of its text. The lexemes stand one behind the other, each where its span says,
and what stands between two of them is blanks and whole comments. A word or a number goes on as far
as it can.
-/
namespace JackToolchain.Jack

/-! ## Gaps -/

/-- A text of blanks and whole comments. A block comment ends with the first mark for its end and a
line comment with its line; if `ends` holds, the text may end in the middle of a line comment. -/
inductive IsGap (ends : Prop) : List Char → Prop where
  | nil : IsGap ends []
  | blank {c : Char} {text : List Char} (own : isBlank c = true) (rest : IsGap ends text) :
      IsGap ends (c :: text)
  | lineComment {comment text : List Char} (whole : '\n' ∉ comment) (rest : IsGap ends text) :
      IsGap ends ('/' :: '/' :: (comment ++ '\n' :: text))
  | lastLine {comment : List Char} (whole : '\n' ∉ comment) (last : ends) :
      IsGap ends ('/' :: '/' :: comment)
  | blockComment {comment text : List Char} (whole : ¬['*', '/'] <:+: comment)
      (rest : IsGap ends text) : IsGap ends ('/' :: '*' :: (comment ++ '*' :: '/' :: text))

/-- What is skipped from the middle of a gap on. -/
def Gap.Skips (ends : Prop) (text : List Char) : Gap → Prop
  | .blank => IsGap ends text
  | .lineComment =>
    (∃ comment rest, text = comment ++ '\n' :: rest ∧ '\n' ∉ comment ∧ IsGap ends rest) ∨
      '\n' ∉ text ∧ ends
  | .blockComment _ =>
    ∃ comment rest, text = comment ++ '*' :: '/' :: rest ∧ ¬['*', '/'] <:+: comment ∧
      IsGap ends rest

section Gaps

variable {ends other : Prop} {offset start : Nat} {gap : Gap} {c : Char} {text rest : List Char}

/-- A gap may end in a line comment for another reason. -/
theorem IsGap.mono (weaker : ends → other) (own : IsGap ends text) : IsGap other text := by
  induction own with
  | nil => exact .nil
  | blank own rest ih => exact .blank own ih
  | lineComment whole rest ih => exact .lineComment whole ih
  | lastLine whole last => exact .lastLine whole (weaker last)
  | blockComment whole rest ih => exact .blockComment whole ih

/-- A comment to the end of a line starts a gap. -/
theorem Gap.Skips.openLine (skips : Gap.lineComment.Skips ends text) :
    IsGap ends ('/' :: '/' :: text) := by
  rcases skips with ⟨comment, rest, rfl, whole, more⟩ | ⟨whole, last⟩
  · exact .lineComment whole more
  · exact .lastLine whole last

/-- A comment with marks on both ends starts a gap. -/
theorem Gap.Skips.openBlock (skips : (Gap.blockComment start).Skips ends text) :
    IsGap ends ('/' :: '*' :: text) := by
  obtain ⟨comment, rest, rfl, whole, more⟩ := skips
  exact .blockComment whole more

/-- A line comment goes on with a character or ends with its line. -/
theorem Gap.Skips.line
    (skips : (if c = '\n' then Gap.blank else .lineComment).Skips ends text) :
    Gap.lineComment.Skips ends (c :: text) := by
  by_cases newline : c = '\n'
  · rw [if_pos newline] at skips
    exact .inl ⟨[], text, by rw [newline]; rfl, List.not_mem_nil, skips⟩
  · rw [if_neg newline] at skips
    have longer {comment : List Char} (whole : '\n' ∉ comment) : '\n' ∉ c :: comment := by
      rw [List.mem_cons, not_or]
      exact ⟨fun same => newline same.symm, whole⟩
    rcases skips with ⟨comment, rest, rfl, whole, more⟩ | ⟨whole, last⟩
    · exact .inl ⟨c :: comment, rest, rfl, longer whole, more⟩
    · exact .inr ⟨longer whole, last⟩

/-- A block comment goes on with a character that does not start the mark for its end. -/
theorem Gap.Skips.block (unended : ∀ rest, c = '*' → text = '/' :: rest → False)
    (skips : (Gap.blockComment start).Skips ends text) :
    (Gap.blockComment start).Skips ends (c :: text) := by
  obtain ⟨comment, rest, rfl, whole, more⟩ := skips
  refine ⟨c :: comment, rest, rfl, ?_, more⟩
  rw [List.infix_cons_iff, not_or]
  refine ⟨?_, whole⟩
  rintro ⟨behind, same⟩
  obtain ⟨rfl, rfl⟩ := List.cons.inj same
  exact unended _ rfl rfl

/-- What is skipped in front of a lexeme or the end of the text is a gap. -/
theorem gap_of_skipGap (skipped : skipGap offset gap text = .ok (start, rest)) :
    ∃ front, text = front ++ rest ∧ start = offset + utf8Length front ∧
      gap.Skips (rest = []) front := by
  have behind {offset size : Nat} {left : List Char} {before after : Gap} (passed : List Char)
      (length : utf8Length passed = size)
      (keeps : ∀ front, left = front ++ rest → after.Skips (rest = []) front →
        before.Skips (rest = []) (passed ++ front))
      (split : ∃ front, left = front ++ rest ∧ start = offset + size + utf8Length front ∧
        after.Skips (rest = []) front) :
      ∃ front, passed ++ left = front ++ rest ∧ start = offset + utf8Length front ∧
        before.Skips (rest = []) front := by
    obtain ⟨front, rfl, place, skips⟩ := split
    refine ⟨passed ++ front, (List.append_assoc _ _ _).symm, ?_, keeps front rfl skips⟩
    rw [utf8Length_append, place, length, Nat.add_assoc]
  have one (c : Char) : utf8Length [c] = c.utf8Size := Nat.zero_add _
  fun_induction skipGap offset gap text with
  | case1 offset left ih => exact behind ['/', '/'] rfl (fun _ _ => .openLine) (ih skipped)
  | case2 offset left ih => exact behind ['/', '*'] rfl (fun _ _ => .openBlock) (ih skipped)
  | case3 offset c left noLine noBlock blank ih =>
    refine behind [c] (one c) (fun _ _ (skips : Gap.blank.Skips _ _) => ?_) (ih skipped)
    exact .blank blank skips
  | case4 offset c left =>
    obtain ⟨rfl, rfl⟩ := Prod.mk.inj (Except.ok.inj skipped)
    exact ⟨[], rfl, rfl, .nil⟩
  | case5 offset c left ih => exact behind [c] (one c) (fun _ _ => .line) (ih skipped)
  | case6 offset opened left ih =>
    refine behind ['*', '/'] rfl (fun front _ skips => ?_) (ih skipped)
    exact ⟨[], front, rfl, by simp, skips⟩
  | case7 offset opened c left noEnd ih =>
    refine behind [c] (one c) (fun front split skips => Gap.Skips.block ?_ skips) (ih skipped)
    rintro other star rfl
    exact noEnd (other ++ rest) star split
  | case8 offset opened => cases skipped
  | case9 offset opened noBlock =>
    obtain ⟨rfl, rfl⟩ := Prod.mk.inj (Except.ok.inj skipped)
    refine ⟨[], rfl, rfl, ?_⟩
    cases opened with
    | blank => exact .nil
    | lineComment => exact .inr ⟨List.not_mem_nil, rfl⟩
    | blockComment start => exact (noBlock start rfl).elim

end Gaps

/-! ## Segmentation -/

/-- The lexemes whose length is not marked in the text: words and numbers. -/
def Lexeme.IsWordlike : Lexeme → Prop
  | .identifier _ | .keyword _ | .integer _ => True
  | .symbol _ | .string _ | .eof => False

/-- The spans between one lexeme and the next, where `start` is the end of what is in front. -/
def gapsFrom (start : Nat) : List (Spanned Lexeme) → List Span
  | [] => []
  | token :: rest => ⟨start, token.span.start⟩ :: gapsFrom token.span.stop rest

/-- The lexemes of the rest of a source from byte `start` on are its segmentation: each stands in
its place, and between them is nothing but gaps. -/
structure Segments (source : String) (start : Nat) (tokens : List (Spanned Lexeme)) : Prop where
  /-- The span of each lexeme covers a text that writes it. -/
  stands : ∀ token ∈ tokens, StandsIn source token
  /-- The spans are within the source. -/
  inBounds : ∀ token ∈ tokens, start ≤ token.span.start ∧ token.span.start ≤ token.span.stop ∧
    token.span.stop ≤ source.utf8ByteSize
  /-- The spans are in order and do not overlap. -/
  ordered : tokens.Pairwise fun left right =>
    left.span.start < right.span.start ∧ left.span.stop ≤ right.span.start
  /-- The last lexeme is the end of the source, and it is the only one. -/
  ends : ∃ front, tokens = front ++ [⟨.eof, ⟨source.utf8ByteSize, source.utf8ByteSize⟩⟩] ∧
    ∀ token ∈ front, token.node ≠ .eof
  /-- Between lexemes are blanks and whole comments. -/
  gaps : ∀ span ∈ gapsFrom start tokens, ∃ text, span.Covers source text ∧
    IsGap (span.stop = source.utf8ByteSize) text.toList
  /-- A word or a number is not followed by a character of words. -/
  maximal : ∀ token ∈ tokens, token.node.IsWordlike → ∀ front c back,
    source.toList = front ++ c :: back → utf8Length front = token.span.stop →
      isWordChar c = false

section Scans

variable {offset start : Nat} {first : Char} {text rest : List Char} {token : Spanned Lexeme}

/-- What is left behind the longest front with a property does not begin with the property. -/
theorem head_dropWhile {own : Char → Bool} {c : Char} (left : text.dropWhile own = c :: rest) :
    own c = false := by
  have stops := List.head?_dropWhile_not own text
  rw [left] at stops
  simpa using stops

/-- A character that is neither a digit nor the start of a word is none of words. -/
theorem isWordChar_eq_false {c : Char} (digit : c.isDigit = false)
    (starts : isWordStart c = false) :
    isWordChar c = false := by
  rw [isWordStart, Bool.or_eq_false_iff] at starts
  rw [isWordChar, Char.isAlphanum, starts.1, digit, starts.2]
  rfl

/-- A word or a number that is read goes on as far as it can. -/
theorem maximal_of_readLexeme (wordlike : token.node.IsWordlike)
    (found : readLexeme offset first text = .ok (token, rest)) :
    ∀ c ∈ rest.head?, isWordChar c = false := by
  intro c next
  obtain ⟨behind, rfl⟩ := List.head?_eq_some_iff.mp next
  generalize left : c :: behind = rest at found
  cases lexemeAt_of_readLexeme found with
  | word starts => exact head_dropWhile left.symm
  | integer digit alone small =>
    rw [← left, List.head?_cons, Option.filter_eq_none_iff] at alone
    exact isWordChar_eq_false (head_dropWhile left.symm) (Bool.eq_false_iff.mpr (alone c rfl))
  | string quote closed inRange => exact wordlike.elim
  | symbol mark same => exact wordlike.elim

/-- A lexeme that is read is not the end of the text. -/
theorem ne_eof_of_readLexeme (found : readLexeme offset first text = .ok (token, rest)) :
    token.node ≠ .eof := by
  have writable := (writable_of_readLexeme found).1
  intro same
  rw [same] at writable
  exact writable

/-- A lexeme that is read takes a part of the text. -/
theorem exists_of_readLexeme (found : readLexeme offset first text = .ok (token, rest)) :
    ∃ own, own ≠ [] ∧ first :: text = own ++ rest ∧ token.node.WrittenAs (String.ofList own) ∧
      token.span = ⟨offset, offset + utf8Length own⟩ := by
  obtain ⟨own, split, written, span⟩ := split_of_readLexeme found
  refine ⟨own, ?_, split, written, span⟩
  rintro rfl
  have shorter := length_of_readLexeme found
  rw [List.nil_append] at split
  rw [← split, List.length_cons] at shorter
  omega

end Scans

/-- The end of a source is its segmentation from the last lexeme on. -/
theorem segments_last {source : String} {front text : List Char}
    (whole : source.toList = front ++ text) (gap : IsGap True text) :
    Segments source (utf8Length front)
      [⟨.eof, ⟨source.utf8ByteSize, source.utf8ByteSize⟩⟩] := by
  have size : source.utf8ByteSize = utf8Length front + utf8Length text := by
    rw [← utf8Length_toList, whole, utf8Length_append]
  have empty : Span.Covers ⟨source.utf8ByteSize, source.utf8ByteSize⟩ source "" := by
    have covers := @Span.covers_of_append source source.toList [] [] (by simp)
    rwa [utf8Length_toList] at covers
  constructor
  · exact List.forall_mem_singleton.mpr ⟨"", rfl, empty⟩
  · exact List.forall_mem_singleton.mpr ⟨by dsimp only; omega, Nat.le_refl _, Nat.le_refl _⟩
  · exact List.pairwise_singleton _ _
  · exact ⟨[], rfl, fun _ member => by contradiction⟩
  · refine List.forall_mem_singleton.mpr ⟨String.ofList text, ?_, ?_⟩
    · rw [size]
      exact Span.covers_of_append (by rw [whole, List.append_nil])
    · rw [String.toList_ofList]
      exact gap.mono fun _ => rfl
  · exact List.forall_mem_singleton.mpr fun wordlike => wordlike.elim

/-- A lexeme behind a gap and the segmentation behind the lexeme are one segmentation. -/
theorem Segments.cons {source : String} {front gap own rest : List Char} {token : Spanned Lexeme}
    {tokens : List (Spanned Lexeme)} (whole : source.toList = front ++ gap ++ own ++ rest)
    (isGap : IsGap False gap) (filled : own ≠ []) (proper : token.node ≠ .eof)
    (written : token.node.WrittenAs (String.ofList own))
    (span : token.span = ⟨utf8Length (front ++ gap), utf8Length (front ++ gap) + utf8Length own⟩)
    (maximal : token.node.IsWordlike → ∀ c ∈ rest.head?, isWordChar c = false)
    (others : Segments source token.span.stop tokens) :
    Segments source (utf8Length front) (token :: tokens) := by
  have positive := utf8Length_pos filled
  have covers : token.span.Covers source (String.ofList own) := by
    rw [span]
    exact Span.covers_of_append whole
  have bounds := covers.bounds
  have start : token.span.start = utf8Length front + utf8Length gap := by
    rw [span, utf8Length_append]
  have stop : token.span.stop = token.span.start + utf8Length own := by rw [span]
  obtain ⟨before, same, ready⟩ := others.ends
  constructor
  · exact List.forall_mem_cons.mpr ⟨⟨_, written, covers⟩, others.stands⟩
  · refine List.forall_mem_cons.mpr ⟨⟨by omega, bounds⟩, fun other member => ?_⟩
    have inside := others.inBounds other member
    exact ⟨by omega, inside.2⟩
  · refine List.pairwise_cons.mpr ⟨fun other member => ?_, others.ordered⟩
    have inside := others.inBounds other member
    omega
  · exact ⟨token :: before, by rw [same, List.cons_append],
      List.forall_mem_cons.mpr ⟨proper, ready⟩⟩
  · refine List.forall_mem_cons.mpr ⟨⟨String.ofList gap, ?_, ?_⟩, others.gaps⟩
    · rw [start]
      exact Span.covers_of_append (by rw [whole, List.append_assoc _ own])
    · rw [String.toList_ofList]
      exact isGap.mono False.elim
  · refine List.forall_mem_cons.mpr ⟨fun wordlike before c back split place => ?_, others.maximal⟩
    have same : before = front ++ gap ++ own := by
      refine eq_of_utf8Length (split.symm.trans whole) ?_
      rw [place, span, utf8Length_append (front ++ gap)]
    rw [whole, same, List.append_cancel_left_eq] at split
    exact maximal wordlike c (by rw [split]; rfl)

/-- The lexemes that a scan finds in the rest of a source are its segmentation. -/
theorem Scans.segments {source : String} {offset : Nat} {text : List Char}
    {tokens : List (Spanned Lexeme)} (scans : Scans offset text tokens) {front : List Char}
    (whole : source.toList = front ++ text) (start : utf8Length front = offset) :
    Segments source offset tokens := by
  induction scans generalizing front with
  | last skipped =>
    obtain ⟨gap, rfl, place, isGap⟩ := gap_of_skipGap skipped
    subst start
    have size : source.utf8ByteSize = utf8Length front + utf8Length gap := by
      rw [← utf8Length_toList, whole, List.append_nil, utf8Length_append]
    rw [place, ← size]
    rw [List.append_nil] at whole
    exact segments_last whole (isGap.mono fun _ => trivial)
  | next skipped found others ih =>
    obtain ⟨gap, rfl, rfl, isGap⟩ := gap_of_skipGap skipped
    obtain ⟨own, filled, split, written, span⟩ := exists_of_readLexeme found
    subst start
    rw [split, ← List.append_assoc, ← List.append_assoc] at whole
    rw [← utf8Length_append] at span
    exact .cons whole (isGap.mono (fun none => by contradiction)) filled
      (ne_eof_of_readLexeme found) written span
      (fun wordlike => maximal_of_readLexeme wordlike found)
      (ih whole (by rw [span, utf8Length_append]))

/-- The lexemes of a text stand where their spans say. -/
theorem standsIn_of_scan {source : String} {tokens : List (Spanned Lexeme)}
    (scanned : scan source = .ok tokens) : ∀ token ∈ tokens, StandsIn source token :=
  ((scans_of_scan scanned).segments (List.nil_append _).symm rfl).stands

/-- The lexemes of a text are a segmentation of the whole text: the spans are in bounds and in
order, the last one is the end of the text, nothing but blanks and whole comments is between them,
each covers what it writes, and words and numbers are as long as they can be. -/
theorem segments_of_scan {source : String} {tokens : List (Spanned Lexeme)}
    (scanned : scan source = .ok tokens) : Segments source 0 tokens :=
  (scans_of_scan scanned).segments (List.nil_append _).symm rfl

/-- A text with comments of both kinds, a mark for a comment in a string literal, a number with zeros
in front and characters of several bytes. -/
def remarked : String := "let /***/x// \u00e9\r\n=\"\u00e9//\" / 007/y2;// end"

/-- The lexemes of the text are a segmentation of it. -/
theorem remarked_segments : ∃ tokens, scan remarked = .ok tokens ∧
    tokens.map (fun token => (token.node, token.span.start, token.span.stop)) =
      [(.keyword .let, 0, 3), (.identifier "x", 9, 10), (.symbol .equals, 17, 18),
        (.string "\u00e9//", 18, 24), (.symbol .slash, 25, 26), (.integer 7, 27, 30),
        (.symbol .slash, 30, 31), (.identifier "y2", 31, 33), (.symbol .semicolon, 33, 34),
        (.eof, 40, 40)] ∧
    Segments remarked 0 tokens := by
  have scanned : scan remarked = .ok [⟨.keyword .let, ⟨0, 3⟩⟩, ⟨.identifier "x", ⟨9, 10⟩⟩,
      ⟨.symbol .equals, ⟨17, 18⟩⟩, ⟨.string "\u00e9//", ⟨18, 24⟩⟩, ⟨.symbol .slash, ⟨25, 26⟩⟩,
      ⟨.integer 7, ⟨27, 30⟩⟩, ⟨.symbol .slash, ⟨30, 31⟩⟩, ⟨.identifier "y2", ⟨31, 33⟩⟩,
      ⟨.symbol .semicolon, ⟨33, 34⟩⟩, ⟨.eof, ⟨40, 40⟩⟩] := by
    decide +kernel
  exact ⟨_, scanned, rfl, segments_of_scan scanned⟩

end JackToolchain.Jack
