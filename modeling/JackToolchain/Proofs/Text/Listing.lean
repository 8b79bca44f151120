import JackToolchain.Text.Listing
import Mathlib.Data.List.Forall2

/-!
# Writing and reading listings

A listing that is written line by line is read line by line: if no written line holds a line end,
the items that are read are the written lines without their comments and the white space around
them, and lines that are blank without those are passed over.
-/
namespace JackToolchain.Text

/-- What is read from one line, if there is anything on it. -/
def cleaned (line : List Char) : Option String :=
  let body := trim (uncommented line)
  if body.isEmpty then none else some (String.ofList body)

/-- The text of lines, each ended by a line end. -/
def listing (lines : List (List Char)) : List Char :=
  lines.flatMap fun line => line ++ ['\n']

/-! ## Marks -/

/-- A text is cut at its last mark in one way only. -/
theorem eq_of_last_mark {mark : Char} {front back left right : List Char}
    (same : front ++ mark :: back = left ++ mark :: right) (own : mark ∉ back)
    (other : mark ∉ right) : front = left ∧ back = right := by
  -- If one front were longer, its end would have the other mark in it.
  obtain ⟨gap, rfl, rest⟩ | ⟨gap, rfl, rest⟩ := List.append_eq_append_iff.mp same
  · cases gap with
    | nil => exact ⟨(List.append_nil _).symm, (List.cons.inj rest).2⟩
    | cons first gap =>
      obtain ⟨-, rfl⟩ := List.cons.inj rest
      exact absurd (List.mem_append_right _ List.mem_cons_self) own
  · cases gap with
    | nil => exact ⟨List.append_nil _, ((List.cons.inj rest).2).symm⟩
    | cons first gap =>
      obtain ⟨-, rfl⟩ := List.cons.inj rest
      exact absurd (List.mem_append_right _ List.mem_cons_self) other

/-! ## Lines -/

section Lines

variable {done : List (Nat × List Char)} {start : Nat} {current line rest : List Char}

/-- The lines that follow do not depend on those that are done, nor their texts on where they
start. -/
private theorem linesInto_snd (other : Nat) :
    (linesInto done start current rest).map Prod.snd =
      (done.map Prod.snd).reverse ++ (linesInto [] other current rest).map Prod.snd := by
  induction rest generalizing done start other current with
  | nil => simp [linesInto]
  | cons c rest ih =>
    rw [linesInto, linesInto]
    split
    · rw [ih 0, @ih [(other, current.reverse)] _ _ 0]
      simp
    · exact ih other

/-- A line end separates the lines of a text. -/
theorem lines_append (front back : List Char) :
    (lines (front ++ '\n' :: back)).map Prod.snd =
      (lines front).map Prod.snd ++ (lines back).map Prod.snd := by
  -- In front of the line end both texts are cut alike, whatever characters a line began with.
  have cut (current : List Char) : (linesInto [] 0 current (front ++ '\n' :: back)).map Prod.snd =
      (linesInto [] 0 current front).map Prod.snd ++ (lines back).map Prod.snd := by
    induction front generalizing current with
    | nil =>
      simp only [List.nil_append, linesInto, if_true]
      exact linesInto_snd 0
    | cons c front ih =>
      rw [List.cons_append, linesInto, linesInto]
      split
      · rw [linesInto_snd 0, ih, ← List.append_assoc, ← linesInto_snd]
      · rw [ih]
  exact cut []

/-- A text without a line end is one line. -/
theorem lines_whole (whole : '\n' ∉ line) : (lines line).map Prod.snd = [line] := by
  have one (current : List Char) :
      (linesInto [] 0 current line).map Prod.snd = [current.reverse ++ line] := by
    induction line generalizing current with
    | nil => simp [linesInto]
    | cons c line ih =>
      have differ : c ≠ '\n' := fun same => whole (same ▸ List.mem_cons_self)
      rw [linesInto, if_neg differ, ih fun member => whole (List.mem_cons_of_mem _ member)]
      simp
  exact one []

/-- The lines of a written listing are those of what was written, before an empty last one. -/
theorem lines_listing (texts : List (List Char)) :
    (lines (listing texts)).map Prod.snd =
      texts.flatMap (fun text => (lines text).map Prod.snd) ++ [[]] := by
  induction texts with
  | nil => rfl
  | cons text rest ih =>
    rw [listing, List.flatMap_cons, List.append_assoc, List.singleton_append, lines_append,
      ← listing, ih, List.flatMap_cons, List.append_assoc]

/-- The items of a text are what is read from its lines. -/
theorem items_node (source : String) :
    (items source).map (fun item => item.node) =
      (lines source.toList).filterMap fun line => cleaned line.2 := by
  have node (start : Nat) (line : List Char) :
      (lineItem? start line).map (fun item => item.node) = cleaned line := by
    unfold lineItem? cleaned
    dsimp only
    split <;> rfl
  rw [items, List.map_filterMap]
  exact congrArg (fun read => List.filterMap read _) (funext fun line => node line.1 line.2)

/-- The lines of a listing of written lines are these, before an empty last one. -/
theorem lines_listing_whole {texts : List (List Char)} (whole : ∀ text ∈ texts, '\n' ∉ text) :
    (lines (listing texts)).map Prod.snd = texts ++ [[]] := by
  rw [lines_listing, List.flatMap_congr fun text member => lines_whole (whole text member),
    List.flatMap_singleton']

/-- What is read from the lines of a text. -/
def contents (text : List Char) : List String :=
  ((lines text).map Prod.snd).filterMap cleaned

/-- The items of a written listing are what is read from all that was written. -/
theorem items_listing_flatMap (texts : List (List Char)) :
    (items (String.ofList (listing texts))).map (fun item => item.node) =
      texts.flatMap contents := by
  calc (items (String.ofList (listing texts))).map (fun item => item.node)
      = contents (listing texts) := by
        rw [items_node, String.toList_ofList, contents, List.filterMap_map]
        rfl
    _ = (texts.flatMap fun text => (lines text).map Prod.snd).filterMap cleaned := by
        rw [contents, lines_listing, List.filterMap_append]
        exact List.append_nil _
    _ = texts.flatMap contents := List.filterMap_flatMap

/-- What is read from a text without a line end is read from it as a line. -/
theorem contents_whole (whole : '\n' ∉ line) : contents line = (cleaned line).toList := by
  rw [contents, lines_whole whole]
  cases read : cleaned line <;> simp [read]

/-- The items of a written listing are what is read from the written lines. -/
theorem items_listing {lines : List (List Char)} (whole : ∀ line ∈ lines, '\n' ∉ line) :
    (items (String.ofList (listing lines))).map (fun item => item.node) =
      lines.filterMap cleaned := by
  rw [items_listing_flatMap, List.filterMap_eq_flatMap_toList]
  exact List.flatMap_congr fun line member => contents_whole (whole line member)

/-- Items whose texts are read as values are read as these values. -/
theorem exists_of_items {ε α : Type} {read : String → Except ε α} {items : List (Spanned String)}
    {values : List α}
    (each : List.Forall₂ (fun text value => read text = .ok value)
      (items.map fun item => item.node) values) :
    ∃ nodes : List (Spanned α), List.Forall₂ (fun item node =>
        read item.node = .ok node.node ∧ item.span = node.span) items nodes ∧
      nodes.map (fun node => node.node) = values := by
  induction items generalizing values with
  | nil =>
    rw [List.map_nil, List.forall₂_nil_left_iff] at each
    exact ⟨[], .nil, each.symm⟩
  | cons item rest ih =>
    rw [List.map_cons, List.forall₂_cons_left_iff] at each
    obtain ⟨value, others, own, later, rfl⟩ := each
    obtain ⟨nodes, made, same⟩ := ih later
    exact ⟨⟨value, item.span⟩ :: nodes, .cons ⟨own, rfl⟩ made, congrArg (value :: ·) same⟩

end Lines

/-! ## Lines that are read as they stand -/

/-- A line is read as it stands if it holds no comment and has no white space at its ends. -/
structure Legible (line : List Char) : Prop where
  /-- It is not empty. -/
  filled : line ≠ []
  /-- It holds no comment. -/
  bare : ¬ ['/', '/'] <:+: line
  /-- It does not start with white space. -/
  start : ∀ c, line.head? = some c → isBlank c = false
  /-- It does not end with white space. -/
  stop : ∀ c, line.getLast? = some c → isBlank c = false

/-- A character other than a slash starts no comment. -/
theorem uncommented_cons {c : Char} (plain : c ≠ '/') (rest : List Char) :
    uncommented (c :: rest) = c :: uncommented rest := by
  rw [uncommented]
  rintro others rfl rfl
  exact plain rfl

/-- A line without a comment is all code. -/
theorem uncommented_eq_self {line : List Char} (bare : ¬ ['/', '/'] <:+: line) :
    uncommented line = line := by
  induction line with
  | nil => rfl
  | cons c rest ih =>
    have shorter : ¬ ['/', '/'] <:+: rest := fun inside =>
      bare (inside.trans (List.suffix_cons c rest).isInfix)
    have code : uncommented (c :: rest) = c :: uncommented rest := by
      rw [uncommented]
      rintro others rfl rfl
      exact bare ⟨[], others, rfl⟩
    rw [code, ih shorter]

/-- Nothing is trimmed from the end of a text that does not end with white space. -/
theorem trimEnd_eq_self {line : List Char}
    (stop : ∀ c, line.getLast? = some c → isBlank c = false) :
    trimEnd line = line := by
  rw [trimEnd]
  cases reversed : line.reverse with
  | nil => rw [List.dropWhile_nil, ← reversed, List.reverse_reverse]
  | cons c rest =>
    have last : line.getLast? = some c := by rw [List.getLast?_eq_head?_reverse, reversed]; rfl
    rw [List.dropWhile_cons_of_neg (by simp [stop c last]), ← reversed, List.reverse_reverse]

/-- A visible character is not trimmed, nor is what stands in front of it. -/
theorem trimEnd_cons {c : Char} (visible : isBlank c = false) (rest : List Char) :
    trimEnd (c :: rest) = c :: trimEnd rest := by
  rw [trimEnd, List.reverse_cons, List.dropWhile_append]
  split
  · rename_i blank
    rw [List.dropWhile_cons_of_neg (by simp [visible]), trimEnd, List.isEmpty_iff.mp blank]
    rfl
  · rw [List.reverse_append, trimEnd]
    rfl

/-- Nothing is trimmed from a text without white space at its ends. -/
theorem trim_eq_self {line : List Char} (start : ∀ c, line.head? = some c → isBlank c = false)
    (stop : ∀ c, line.getLast? = some c → isBlank c = false) : trim line = line := by
  have front : trimStart line = line := by
    cases line with
    | nil => rfl
    | cons c rest => exact List.dropWhile_cons_of_neg (by simp [start c rfl])
  rw [trim, front, trimEnd_eq_self stop]

/-- A line that starts with a visible character is read without its comment and the white space at
its end. -/
theorem cleaned_cons {c : Char} (plain : c ≠ '/') (visible : isBlank c = false)
    (rest : List Char) :
    cleaned (c :: rest) = some (String.ofList (c :: trimEnd (uncommented rest))) := by
  rw [cleaned, uncommented_cons plain, trim, trimStart,
    List.dropWhile_cons_of_neg (by simp [visible]), trimEnd_cons visible]
  rfl

/-- The visible characters of ASCII are no white space. -/
theorem isBlank_eq_false {c : Char} (low : 33 ≤ c.toNat) (high : c.toNat ≤ 126) :
    isBlank c = false := by
  simp [isBlank]
  omega

/-- The letters are in two ranges. -/
theorem toNat_of_isAlpha {c : Char} (letter : c.isAlpha = true) :
    65 ≤ c.toNat ∧ c.toNat ≤ 90 ∨ 97 ≤ c.toNat ∧ c.toNat ≤ 122 := by
  have ranges : (decide (c.val ≥ 'A'.val ∧ c.val ≤ 'Z'.val) ||
      (decide (c.val ≥ 'a'.val) && decide (c.val ≤ 'z'.val))) = true := letter
  simpa [UInt32.le_iff_toNat_le] using ranges

/-- The digits are in one range. -/
theorem toNat_of_isDigit {c : Char} (digit : c.isDigit = true) :
    48 ≤ c.toNat ∧ c.toNat ≤ 57 := by
  simpa [Char.isDigit, UInt32.le_iff_toNat_le] using digit

/-- A line without white space and without a comment is legible. -/
theorem Legible.of_visible {line : List Char} (filled : line ≠ [])
    (bare : ¬ ['/', '/'] <:+: line) (visible : ∀ c ∈ line, isBlank c = false) : Legible line where
  filled := filled
  bare := bare
  start := fun c first => visible c (List.mem_of_mem_head? first)
  stop := fun c last => visible c (List.mem_of_mem_getLast? last)

/-- What is read from a legible line is the line. -/
theorem Legible.cleaned_eq {line : List Char} (legible : Legible line) :
    cleaned line = some (String.ofList line) := by
  have filled : line.isEmpty = false := by
    cases line with
    | nil => exact absurd rfl legible.filled
    | cons c rest => rfl
  rw [cleaned, uncommented_eq_self legible.bare, trim_eq_self legible.start legible.stop]
  simp [filled]

/-- Nothing is read from a line that is a comment. -/
theorem cleaned_comment (text : List Char) : cleaned ('/' :: '/' :: text) = none := rfl

/-! ## Words -/

/-- A word that a line may consist of: it is not empty, and it holds no slash and no white space. -/
def IsWord (word : List Char) : Prop := word ≠ [] ∧ ∀ c ∈ word, c ≠ '/' ∧ isBlank c = false

/-- A word with a space behind it is read as the first word. -/
private theorem wordsFrom_append {current word : List Char}
    (visible : ∀ c ∈ word, isBlank c = false) (some : current.reverse ++ word ≠ [])
    (rest : List Char) :
    wordsFrom current (word ++ ' ' :: rest) = (current.reverse ++ word) :: wordsFrom [] rest := by
  induction word generalizing current with
  | nil =>
    rw [List.append_nil] at some
    have filled : current.isEmpty = false := by
      rw [List.isEmpty_eq_false_iff]
      exact fun empty => some (by rw [empty, List.reverse_nil])
    rw [List.nil_append, wordsFrom, if_pos (by decide), filled, if_neg Bool.false_ne_true,
      List.append_nil]
  | cons c word ih =>
    rw [List.cons_append, wordsFrom, if_neg (by simp [visible c List.mem_cons_self]),
      ih (fun c member => visible c (List.mem_cons_of_mem _ member)) (by simp)]
    simp

/-- A word at the end of a line is read as the last word. -/
private theorem wordsFrom_self {current word : List Char}
    (visible : ∀ c ∈ word, isBlank c = false) (some : current.reverse ++ word ≠ []) :
    wordsFrom current word = [current.reverse ++ word] := by
  induction word generalizing current with
  | nil =>
    rw [List.append_nil] at some ⊢
    have filled : current.isEmpty = false := by
      rw [List.isEmpty_eq_false_iff]
      exact fun empty => some (by rw [empty, List.reverse_nil])
    rw [wordsFrom, filled, if_neg Bool.false_ne_true]
  | cons c word ih =>
    rw [wordsFrom, if_neg (by simp [visible c List.mem_cons_self]),
      ih (fun c member => visible c (List.mem_cons_of_mem _ member)) (by simp)]
    simp

/-- Two texts around a character that is no slash hold no comment mark if neither does. -/
theorem bare_append {between : Char} {front back : List Char} (plain : between ≠ '/')
    (frontBare : ¬ ['/', '/'] <:+: front) (backBare : ¬ ['/', '/'] <:+: back) :
    ¬ ['/', '/'] <:+: front ++ between :: back := by
  induction front with
  | nil =>
    intro inside
    rcases List.infix_cons_iff.mp inside with start | later
    · exact plain (List.cons_prefix_cons.mp start).1.symm
    · exact backBare later
  | cons c rest ih =>
    intro inside
    rcases List.infix_cons_iff.mp inside with start | later
    · obtain ⟨rfl, next⟩ := List.cons_prefix_cons.mp start
      cases rest with
      | nil => exact plain (List.cons_prefix_cons.mp next).1.symm
      | cons second rest =>
        obtain ⟨rfl, _⟩ := List.cons_prefix_cons.mp next
        exact frontBare ⟨[], rest, rfl⟩
    · exact ih (fun own => frontBare (own.trans (List.suffix_cons c rest).isInfix)) later

/-- The words of a line are read back, and the line is read as it stands. -/
theorem words_line {line : List (List Char)} (some : line ≠ [])
    (own : ∀ word ∈ line, IsWord word) :
    words ([' '].intercalate line) = line ∧ Legible ([' '].intercalate line) ∧
      ∀ c ∈ [' '].intercalate line, c = ' ' ∨ isBlank c = false := by
  induction line with
  | nil => contradiction
  | cons word rest ih =>
    obtain ⟨filled, visible⟩ := own word List.mem_cons_self
    have noBlank (c : Char) (member : c ∈ word) : isBlank c = false := (visible c member).2
    have bare : ¬ ['/', '/'] <:+: word := fun inside =>
      (visible _ (inside.subset List.mem_cons_self)).1 rfl
    cases rest with
    | nil =>
      rw [List.intercalate_singleton]
      refine ⟨wordsFrom_self noBlank filled, ?_, fun c member => .inr (noBlank c member)⟩
      exact .of_visible filled bare noBlank
    | cons next rest =>
      obtain ⟨read, legible, chars⟩ :=
        ih (List.cons_ne_nil _ _) fun word member => own word (List.mem_cons_of_mem _ member)
      rw [List.intercalate_cons_cons, List.append_assoc, List.singleton_append]
      refine ⟨?_, ⟨by simp, bare_append (by decide) bare legible.bare, fun c first => ?_, fun c last => ?_⟩,
        fun c member => ?_⟩
      · rw [words, @wordsFrom_append [] word noBlank filled, ← words, read]
        rfl
      · cases word with
        | nil => exact absurd rfl filled
        | cons letter word =>
          obtain rfl := Option.some.inj first
          exact noBlank letter List.mem_cons_self
      · have final := List.getLast?_eq_some_getLast legible.filled
        rw [List.getLast?_append, List.getLast?_cons, final] at last
        exact legible.stop c (final.trans last)
      · rcases List.mem_append.mp member with inWord | later
        · exact .inr (noBlank c inWord)
        · rcases List.mem_cons.mp later with rfl | inRest
          · exact .inl rfl
          · exact chars c inRest

end JackToolchain.Text
