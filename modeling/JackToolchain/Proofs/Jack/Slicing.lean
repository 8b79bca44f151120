import JackToolchain.Proofs.Jack.Placing
import JackToolchain.Proofs.Jack.Segmentation
import JackToolchain.Proofs.Jack.Spacing

/-!
# Scanning a part of a text

What the scanner does depends on the text up to the lexeme it reads, and not on what is behind that
or how far the text is from its start. So the part of a source in which some of its lexemes stand is
scanned as these lexemes, moved to the front.
-/
namespace JackToolchain

/-- A span that is moved away from the front. -/
def Span.shift (distance : Nat) (span : Span) : Span :=
  ⟨distance + span.start, distance + span.stop⟩

/-- A value that is moved away from the front. -/
def Spanned.shift {α : Type} (distance : Nat) (item : Spanned α) : Spanned α :=
  ⟨item.node, item.span.shift distance⟩

namespace Jack

/-! ## One lexeme -/

/-- The same kind of gap; a block comment began at `start`. -/
def Gap.opened (start : Nat) : Gap → Gap
  | .blank => .blank
  | .lineComment => .lineComment
  | .blockComment _ => .blockComment start

section Lexemes

variable {offset start : Nat} {gap : Gap} {first : Char} {text rest other : List Char}
variable {token : Spanned Lexeme}

/-- In front of a lexeme nothing is skipped, whatever is left of the text behind it. -/
theorem skipGap_stops (skipped : skipGap offset gap text = .ok (start, first :: rest))
    (shorter : other <+: rest) (place : Nat) :
    skipGap place .blank (first :: other) = .ok (place, first :: other) := by
  fun_induction skipGap offset gap text with
  | case1 offset left ih => exact ih skipped
  | case2 offset left ih => exact ih skipped
  | case3 offset c left noLine noBlock blank ih => exact ih skipped
  | case4 offset c left noLine noBlock visible =>
    obtain ⟨-, same⟩ := Prod.mk.inj (Except.ok.inj skipped)
    obtain ⟨rfl, rfl⟩ := List.cons.inj same
    obtain ⟨behind, rfl⟩ := shorter
    rw [skipGap, if_neg visible]
    · rintro others rfl rfl
      exact noLine _ rfl rfl
    · rintro others rfl rfl
      exact noBlock _ rfl rfl
  | case5 offset c left ih => exact ih skipped
  | case6 offset opened left ih => exact ih skipped
  | case7 offset opened c left noEnd ih => exact ih skipped
  | case8 offset opened => cases skipped
  | case9 offset => cases skipped

/-- A blank is skipped. -/
theorem skipGap_blank {c : Char} (blank : isBlank c = true) (text : List Char) :
    skipGap offset .blank (c :: text) = skipGap (offset + c.utf8Size) .blank text := by
  have plain : c ≠ '/' := by
    rintro rfl
    contradiction
  rw [skipGap, if_pos blank]
  · exact fun _ same => absurd same plain
  · exact fun _ same => absurd same plain

/-- A character of a block comment is skipped. -/
theorem skipGap_block {c : Char} {opened : Nat} {text : List Char}
    (noEnd : ∀ rest, c = '*' → text = '/' :: rest → False) :
    skipGap offset (.blockComment opened) (c :: text) =
      skipGap (offset + c.utf8Size) (.blockComment opened) text := by
  rw [skipGap]
  exact noEnd

/-- What is skipped in front of a lexeme does not depend on what is behind the lexeme, nor on where
the text starts. -/
theorem skipGap_cut (skipped : skipGap offset gap text = .ok (start, first :: rest)) :
    ∃ front, text = front ++ first :: rest ∧ ∀ place opened other, other <+: rest →
      skipGap place (gap.opened opened) (front ++ first :: other) =
        .ok (place + utf8Length front, first :: other) := by
  have one (c : Char) : utf8Length [c] = c.utf8Size := Nat.zero_add _
  -- What is skipped first moves the place of the rest by its length.
  have behind (passed : List Char) {front text : List Char} {place size : Nat}
      (length : utf8Length passed = size) :
      (.ok (place + size + utf8Length front, text) : Outcome (Nat × List Char)) =
        .ok (place + utf8Length (passed ++ front), text) := by
    rw [utf8Length_append, length, Nat.add_assoc]
  have stops (other : List Char) (shorter : other <+: rest) := skipGap_stops skipped shorter
  fun_induction skipGap offset gap text with
  | case1 offset left ih =>
    obtain ⟨front, rfl, cut⟩ := ih skipped
    refine ⟨'/' :: '/' :: front, rfl, fun place opened other shorter => ?_⟩
    exact (cut (place + 2) opened other shorter).trans (behind ['/', '/'] rfl)
  | case2 offset left ih =>
    obtain ⟨front, rfl, cut⟩ := ih skipped
    refine ⟨'/' :: '*' :: front, rfl, fun place opened other shorter => ?_⟩
    exact (cut (place + 2) place other shorter).trans (behind ['/', '*'] rfl)
  | case3 offset c left noLine noBlock blank ih =>
    obtain ⟨front, rfl, cut⟩ := ih skipped
    refine ⟨c :: front, rfl, fun place opened other shorter => ?_⟩
    exact (skipGap_blank blank _).trans ((cut _ opened other shorter).trans (behind [c] (one c)))
  | case4 offset c left noLine noBlock visible =>
    obtain ⟨-, same⟩ := Prod.mk.inj (Except.ok.inj skipped)
    obtain ⟨rfl, rfl⟩ := List.cons.inj same
    exact ⟨[], rfl, fun place opened other shorter => stops other shorter place⟩
  | case5 offset c left ih =>
    obtain ⟨front, rfl, cut⟩ := ih skipped
    refine ⟨c :: front, rfl, fun place opened other shorter => ?_⟩
    have next : Gap.opened opened (if c = '\n' then .blank else .lineComment) =
        if c = '\n' then .blank else .lineComment := by
      split <;> rfl
    have found := cut (place + c.utf8Size) opened other shorter
    rw [next] at found
    exact found.trans (behind [c] (one c))
  | case6 offset opened left ih =>
    obtain ⟨front, rfl, cut⟩ := ih skipped
    refine ⟨'*' :: '/' :: front, rfl, fun place opened other shorter => ?_⟩
    exact (cut (place + 2) opened other shorter).trans (behind ['*', '/'] rfl)
  | case7 offset opened c left noEnd ih =>
    obtain ⟨front, rfl, cut⟩ := ih skipped
    refine ⟨c :: front, rfl, fun place opened other shorter => ?_⟩
    have unended (others : List Char) (star : c = '*')
        (slash : front ++ first :: other = '/' :: others) : False := by
      cases front with
      | nil => exact noEnd rest star (congrArg (· :: rest) (List.cons.inj slash).1)
      | cons second front =>
        exact noEnd (front ++ first :: rest) star
          (congrArg (· :: (front ++ first :: rest)) (List.cons.inj slash).1)
    exact (skipGap_block unended).trans
      ((cut _ opened other shorter).trans (behind [c] (one c)))
  | case8 offset opened => cases skipped
  | case9 offset => cases skipped

/-- A text is cut behind the longest front with a property, whatever is left behind that. -/
theorem cut_longest {own : Char → Bool} (shorter : other <+: text.dropWhile own) :
    (text.takeWhile own ++ other).takeWhile own = text.takeWhile own ∧
      (text.takeWhile own ++ other).dropWhile own = other := by
  have front : ∀ c ∈ text.takeWhile own, own c = true :=
    List.all_eq_true.mp List.all_takeWhile
  rw [List.takeWhile_append_of_pos front, List.dropWhile_append_of_pos front]
  cases other with
  | nil => exact ⟨List.append_nil _, rfl⟩
  | cons c behind =>
    obtain ⟨more, same⟩ := shorter
    have stops : own c ≠ true := Bool.eq_false_iff.mp (head_dropWhile same.symm)
    rw [List.takeWhile_cons_of_neg stops, List.dropWhile_cons_of_neg stops]
    exact ⟨List.append_nil _, rfl⟩

/-- A lexeme that is read does not depend on what is behind it, nor on where the text starts. -/
theorem readLexeme_cut (found : readLexeme offset first text = .ok (token, rest)) :
    ∃ own, text = own ++ rest ∧ ∀ place other, other <+: rest →
      readLexeme place first (own ++ other) =
        .ok (⟨token.node, ⟨place, place + utf8Length (first :: own)⟩⟩, other) := by
  have ascii {c : Char} {front : List Char} {own : Char → Bool}
      (low : ∀ c, own c = true → c.toNat ≤ 127) (first : c.toNat ≤ 127) :
      utf8Length (c :: front.takeWhile own) = (c :: front.takeWhile own).length :=
    utf8Length_of_ascii (List.forall_mem_cons.mpr ⟨first, fun c member =>
      low c (List.all_eq_true.mp List.all_takeWhile c member)⟩)
  have digits (c : Char) (own : c.isDigit = true) : c.toNat ≤ 127 := by
    have range := Text.toNat_of_isDigit own
    omega
  have writable := (writable_of_readLexeme found).1
  cases lexemeAt_of_readLexeme found with
  | word starts =>
    refine ⟨_, List.takeWhile_append_dropWhile.symm, fun place other shorter => ?_⟩
    obtain ⟨taken, left⟩ := cut_longest shorter
    rw [readLexeme, if_pos starts, taken, left, ascii (fun c => ascii_of_isWordChar)
      (ascii_of_isWordChar (isWordChar_of_isWordStart starts))]
  | integer digit alone small =>
    refine ⟨_, List.takeWhile_append_dropWhile.symm, fun place other shorter => ?_⟩
    obtain ⟨taken, left⟩ := cut_longest shorter
    have noWord : isWordStart first ≠ true := fun starts => by
      rw [isDigit_of_isWordStart starts] at digit
      exact Bool.false_ne_true digit
    have noLetter : other.head?.filter isWordStart = none := by
      cases other with
      | nil => rfl
      | cons c behind =>
        obtain ⟨more, same⟩ := shorter
        rw [← same] at alone
        exact alone
    rw [readLexeme, if_neg noWord, if_pos digit, readInteger, taken, left, noLetter,
      ascii digits (digits first digit)]
    exact if_pos small
  | @string _ quote closed inRange =>
    subst quote
    refine ⟨text.takeWhile isStringChar ++ ['"'], ?_, fun place other _ => ?_⟩
    · rw [List.append_assoc, List.singleton_append, ← closed, List.takeWhile_append_dropWhile]
    · have read := @readLexeme_string other place _ writable
      have size : utf8Length ('"' :: (text.takeWhile isStringChar ++ ['"'])) =
          utf8Length (text.takeWhile isStringChar) + 2 := by
        rw [utf8Length_cons, utf8Length_append, Nat.add_comm]
        rfl
      rw [String.toList_ofList] at read
      rw [List.append_assoc, List.singleton_append, size]
      exact read
  | symbol mark same =>
    subst same
    have size : utf8Length [mark.char] = 1 := by cases mark <;> rfl
    refine ⟨[], rfl, fun place other _ => ?_⟩
    rw [List.nil_append, size]
    exact readLexeme_symbol place mark

end Lexemes

/-! ## A part of a text -/

/-- The end of a text at an offset. -/
def endAt (offset : Nat) : Spanned Lexeme := ⟨.eof, ⟨offset, offset⟩⟩

/-- A scan finds the lexemes of a text. -/
theorem scanInto_of_scans {offset : Nat} {text : List Char} {tokens : List (Spanned Lexeme)}
    (scans : Scans offset text tokens) (done : List (Spanned Lexeme)) :
    scanInto done offset text = .ok (done.reverse ++ tokens) := by
  induction scans generalizing done with
  | last skipped => rw [scanInto_last skipped, List.reverse_cons]
  | next skipped found others ih =>
    rw [scanInto_step skipped found, ih, List.reverse_cons, List.append_assoc,
      List.singleton_append]

section Parts

variable {offset : Nat} {text : List Char} {token : Spanned Lexeme}
variable {tokens front own back : List (Spanned Lexeme)}

/-- A first lexeme that is not the end of the text is read behind a gap. -/
theorem Scans.uncons (scans : Scans offset text (token :: tokens)) (proper : token.node ≠ .eof) :
    ∃ start first rest after, skipGap offset .blank text = .ok (start, first :: rest) ∧
      readLexeme start first rest = .ok (token, after) ∧ Scans token.span.stop after tokens := by
  cases scans with
  | last skipped => exact absurd rfl proper
  | next skipped found others => exact ⟨_, _, _, _, skipped, found, others⟩

/-- The lexemes of a text from one of them on are those of the text from this one on. -/
theorem Scans.drop (scans : Scans offset text (front ++ back))
    (proper : ∀ token ∈ front, token.node ≠ .eof) :
    ∃ passed rest, text = passed ++ rest ∧ Scans (offset + utf8Length passed) rest back := by
  induction front generalizing offset text with
  | nil => exact ⟨[], text, rfl, scans⟩
  | cons token front ih =>
    obtain ⟨ownProper, othersProper⟩ := List.forall_mem_cons.mp proper
    obtain ⟨start, first, rest, after, skipped, found, others⟩ := scans.uncons ownProper
    obtain ⟨gap, rfl, rfl, -⟩ := gap_of_skipGap skipped
    obtain ⟨own, split, -, span⟩ := split_of_readLexeme found
    obtain ⟨passed, left, rfl, scans⟩ := ih others othersProper
    refine ⟨gap ++ own ++ passed, left, ?_, ?_⟩
    · rw [split]
      simp only [List.append_assoc]
    · rw [span] at scans
      rwa [utf8Length_append, utf8Length_append, ← Nat.add_assoc, ← Nat.add_assoc]

/-- Lexemes at the front of a text are those of a part of the text, wherever it starts. -/
theorem Scans.cut (scans : Scans offset text (own ++ back))
    (proper : ∀ token ∈ own, token.node ≠ .eof) :
    ∃ part rest, text = part ++ rest ∧
      (∀ span : Span, span.stop = offset → (lastPlace span own).stop = offset + utf8Length part) ∧
      ∀ place distance, offset = distance + place → ∃ moved,
        own = moved.map (Spanned.shift distance) ∧
          Scans place part (moved ++ [endAt (place + utf8Length part)]) := by
  induction own generalizing offset text with
  | nil => exact ⟨[], text, rfl, fun span stop => stop, fun place _ _ => ⟨[], rfl, .last rfl⟩⟩
  | cons token own ih =>
    obtain ⟨ownProper, othersProper⟩ := List.forall_mem_cons.mp proper
    obtain ⟨start, first, rest, after, skipped, found, others⟩ := scans.uncons ownProper
    obtain ⟨part, left, rfl, stop, moves⟩ := ih others othersProper
    obtain ⟨gap, rfl, skips⟩ := skipGap_cut skipped
    obtain ⟨lexeme, rfl, reads⟩ := readLexeme_cut found
    have shorter : lexeme ++ part <+: lexeme ++ (part ++ left) :=
      ⟨left, List.append_assoc _ _ _⟩
    have length : utf8Length (gap ++ first :: (lexeme ++ part)) =
        utf8Length gap + utf8Length (first :: lexeme) + utf8Length part := by
      rw [← List.cons_append, utf8Length_append, utf8Length_append, Nat.add_assoc]
    have begins : start = offset + utf8Length gap :=
      (Prod.mk.inj (Except.ok.inj (skipped.symm.trans
        (skips offset offset _ (List.prefix_refl _))))).1
    have same : token = ⟨token.node, ⟨start, start + utf8Length (first :: lexeme)⟩⟩ :=
      (Prod.mk.inj (Except.ok.inj (found.symm.trans (reads start _ (List.prefix_refl _))))).1
    have stops : token.span.stop = start + utf8Length (first :: lexeme) :=
      congrArg (fun token => token.span.stop) same
    refine ⟨gap ++ first :: (lexeme ++ part), left, ?_, fun span _ => ?_,
      fun place distance away => ?_⟩
    · simp only [List.append_assoc, List.cons_append]
    · have last := stop token.span rfl
      rw [length]
      refine last.trans ?_
      omega
    · obtain ⟨moved, rfl, moving⟩ :=
        moves (place + utf8Length gap + utf8Length (first :: lexeme)) distance (by omega)
      refine ⟨⟨token.node, ⟨place + utf8Length gap,
        place + utf8Length gap + utf8Length (first :: lexeme)⟩⟩ :: moved, ?_, ?_⟩
      · rw [List.map_cons, Spanned.shift, Span.shift]
        refine congrArg (· :: _) (same.trans ?_)
        rw [begins, away]
        simp only [Nat.add_assoc]
      · rw [length, ← Nat.add_assoc, ← Nat.add_assoc]
        exact .next (skips place place _ shorter) (reads _ part (List.prefix_append _ _)) moving

/-- Some of the lexemes of a source are the lexemes of the part of the source in which they stand,
moved to the front. -/
theorem scan_part {source : String} (scanned : scan source = .ok tokens)
    (split : tokens = front ++ (token :: own ++ back))
    (proper : ∀ other ∈ front ++ token :: own, other.node ≠ .eof) :
    ∃ before part behind moved, source.toList = before ++ part ++ behind ∧
      token.span.start = utf8Length before ∧
      (lastPlace token.span own).stop = utf8Length before + utf8Length part ∧
      scan (String.ofList part) = .ok (moved ++ [endAt (utf8Length part)]) ∧
      token :: own = moved.map (Spanned.shift (utf8Length before)) := by
  have scans := scans_of_scan scanned
  rw [split] at scans
  obtain ⟨frontProper, ownProper⟩ := List.forall_mem_append.mp proper
  obtain ⟨firstProper, othersProper⟩ := List.forall_mem_cons.mp ownProper
  obtain ⟨passed, rest, whole, scans⟩ := scans.drop frontProper
  obtain ⟨start, first, text, after, skipped, read, others⟩ := scans.uncons firstProper
  obtain ⟨gap, rfl, place, -⟩ := gap_of_skipGap skipped
  obtain ⟨lexeme, rfl, reads⟩ := readLexeme_cut read
  obtain ⟨part, behind, rfl, stop, moves⟩ := others.cut othersProper
  have shorter : lexeme ++ part <+: lexeme ++ (part ++ behind) :=
    ⟨behind, List.append_assoc _ _ _⟩
  have same : token = ⟨token.node, ⟨start, start + utf8Length (first :: lexeme)⟩⟩ :=
    (Prod.mk.inj (Except.ok.inj (read.symm.trans (reads start _ (List.prefix_refl _))))).1
  have begins : start = utf8Length (passed ++ gap) := by
    rw [place, utf8Length_append, Nat.zero_add]
  have length : utf8Length (first :: (lexeme ++ part)) =
      0 + utf8Length (first :: lexeme) + utf8Length part := by
    rw [← List.cons_append, utf8Length_append, Nat.zero_add]
  have stops : token.span.stop = start + utf8Length (first :: lexeme) :=
    congrArg (fun token => token.span.stop) same
  obtain ⟨moved, rfl, moving⟩ :=
    moves (0 + utf8Length (first :: lexeme)) (utf8Length (passed ++ gap)) (by omega)
  refine ⟨passed ++ gap, first :: (lexeme ++ part), behind,
    ⟨token.node, ⟨0, 0 + utf8Length (first :: lexeme)⟩⟩ :: moved, ?_, ?_, ?_, ?_, ?_⟩
  · rw [whole]
    simp only [List.append_assoc, List.cons_append]
  · rw [← begins]
    exact congrArg (fun token => token.span.start) same
  · refine (stop token.span rfl).trans ?_
    rw [length]
    omega
  · rw [scan, String.toList_ofList, length]
    exact scanInto_of_scans (.next (skipGap_stops skipped shorter 0)
      (reads 0 part (List.prefix_append _ _)) moving) []
  · rw [List.map_cons, Spanned.shift, Span.shift, ← begins]
    refine congrArg (· :: _) (same.trans ?_)
    rw [Nat.zero_add, Nat.add_zero]

end Parts

end Jack

end JackToolchain
