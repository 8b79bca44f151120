import JackToolchain.Proofs.Outcome
import JackToolchain.Proofs.Text.Covering

/-!
# Places of listed items

The items of a listing are described line by line: a line is cut in front of its comment, and what
is left without the white space at its ends is the item. The items stand where their spans say, one
to each line that is not blank without its comment.
-/
namespace JackToolchain.Text

/-! ## Lines -/

/-- A line in front of its comment, which starts at the first comment mark. -/
def IsCode (line code : List Char) : Prop :=
  ∃ comment, line = code ++ comment ∧ (comment = [] ∨ ['/', '/'] <+: comment) ∧
    ¬['/', '/'] <:+: code ++ comment.take 1

/-- A line without an item: it is blank in front of its comment. -/
def IsBlankLine (line : List Char) : Prop :=
  ∃ code, IsCode line code ∧ ∀ c ∈ code, isBlank c = true

/-- A line with an item: `body` is the line in front of its comment without the white space at its
ends, and `lead` is the white space in front. -/
structure IsItemLine (line lead body : List Char) : Prop where
  /-- White space is around the item, and a comment may be behind it. -/
  split : ∃ trail, IsCode line (lead ++ body ++ trail) ∧ ∀ c ∈ trail, isBlank c = true
  /-- What is in front of the item is white space. -/
  lead : ∀ c ∈ lead, isBlank c = true
  /-- The item is not empty. -/
  filled : body ≠ []
  /-- The item does not start with white space. -/
  start : ∀ c, body.head? = some c → isBlank c = false
  /-- The item does not end with white space. -/
  stop : ∀ c, body.getLast? = some c → isBlank c = false

section Line

variable {line code lead body : List Char} {c : Char}

/-- What is read of a line is what stands in front of its comment. -/
theorem isCode_uncommented (line : List Char) : IsCode line (uncommented line) := by
  fun_induction uncommented line with
  | case1 => exact ⟨[], rfl, .inl rfl, by simp⟩
  | case2 comment =>
    have short : ¬['/', '/'] <:+: ['/'] := by decide
    exact ⟨'/' :: '/' :: comment, rfl, .inr ⟨comment, rfl⟩, short⟩
  | case3 c rest noMark ih =>
    obtain ⟨comment, split, starts, bare⟩ := ih
    refine ⟨comment, by rw [List.cons_append, ← split], starts, ?_⟩
    rw [List.cons_append, List.infix_cons_iff, not_or]
    refine ⟨?_, bare⟩
    -- A mark at the front would be a mark of the line, as the comment starts with a slash.
    rintro ⟨others, same⟩
    obtain ⟨rfl, next⟩ := List.cons.inj same
    have second : '/' :: others <+: rest := by
      rw [split]
      calc '/' :: others = uncommented rest ++ comment.take 1 := next
        _ <+: uncommented rest ++ comment :=
          (List.prefix_append_right_inj _).mpr (List.take_prefix _ _)
    obtain ⟨behind, rfl⟩ := second
    exact noMark (others ++ behind) rfl rfl

/-- A text is white space, what is left when it is trimmed, and white space. -/
theorem trim_split (code : List Char) :
    ∃ trail, code = code.takeWhile isBlank ++ trim code ++ trail ∧
      ∀ c ∈ trail, isBlank c = true := by
  refine ⟨((trimStart code).reverse.takeWhile isBlank).reverse, ?_, fun c member => ?_⟩
  · rw [List.append_assoc, trim, trimEnd, ← List.reverse_append, List.takeWhile_append_dropWhile,
      List.reverse_reverse, trimStart, List.takeWhile_append_dropWhile]
  · exact List.all_eq_true.mp List.all_takeWhile c (List.mem_reverse.mp member)

/-- A text does not end with white space when it is trimmed. -/
theorem getLast?_trim (last : (trim code).getLast? = some c) : isBlank c = false := by
  rw [trim, trimEnd, List.getLast?_reverse] at last
  have stops := List.head?_dropWhile_not isBlank (trimStart code).reverse
  rw [last] at stops
  simpa using stops

/-- A text does not start with white space when it is trimmed. -/
theorem head?_trim (first : (trim code).head? = some c) : isBlank c = false := by
  have front : (trimStart code).head? = some c := by
    obtain ⟨trail, split⟩ : trim code <+: trimStart code := by
      refine ⟨((trimStart code).reverse.takeWhile isBlank).reverse, ?_⟩
      rw [trim, trimEnd, ← List.reverse_append, List.takeWhile_append_dropWhile,
        List.reverse_reverse]
    rw [← split, List.head?_append, first]
    rfl
  have stops := List.head?_dropWhile_not isBlank code
  rw [← trimStart, front] at stops
  simpa using stops

/-- A line is blank, or it holds the item that is read from it. -/
theorem lineItem?_cases (start : Nat) (line : List Char) :
    IsBlankLine line ∧ lineItem? start line = none ∨
      ∃ lead body, IsItemLine line lead body ∧ lineItem? start line =
        some ⟨String.ofList body, ⟨start + utf8Length lead,
          start + utf8Length lead + utf8Length body⟩⟩ := by
  have own := isCode_uncommented line
  obtain ⟨trail, split, blank⟩ := trim_split (uncommented line)
  have lead : ∀ c ∈ (uncommented line).takeWhile isBlank, isBlank c = true :=
    List.all_eq_true.mp List.all_takeWhile
  by_cases empty : trim (uncommented line) = []
  · refine .inl ⟨⟨uncommented line, own, fun c member => ?_⟩, ?_⟩
    · rw [empty, List.append_nil] at split
      rw [split] at member
      exact (List.mem_append.mp member).elim (lead c) (blank c)
    · rw [lineItem?, empty]
      rfl
  · refine .inr ⟨_, _, ⟨⟨trail, ?_, blank⟩, lead, empty, fun c => head?_trim,
      fun c => getLast?_trim⟩, ?_⟩
    · rwa [← split]
    · rw [lineItem?]
      dsimp only
      rw [if_neg (mt List.isEmpty_iff.mp empty)]

/-- An item of a line is the item of the listing that it is by itself. -/
theorem IsItemLine.legible (own : IsItemLine line lead body) : Legible body := by
  obtain ⟨trail, ⟨comment, -, -, bare⟩, -⟩ := own.split
  refine ⟨own.filled, fun mark => bare (mark.trans ?_), own.start, own.stop⟩
  exact ⟨lead, trail ++ comment.take 1, by simp only [List.append_assoc]⟩

end Line

/-! ## Listings -/

/-- The items of the lines behind a text `front`, with their places: a line that is not blank without
its comment has one. -/
inductive Lists : List Char → List (List Char) → List (Spanned String) → Prop where
  | nil {front : List Char} : Lists front [] []
  | blank {front line : List Char} {lines : List (List Char)} {items : List (Spanned String)}
      (own : IsBlankLine line) (others : Lists (front ++ line ++ ['\n']) lines items) :
      Lists front (line :: lines) items
  | item {front line lead body : List Char} {lines : List (List Char)}
      {items : List (Spanned String)} (own : IsItemLine line lead body)
      (others : Lists (front ++ line ++ ['\n']) lines items) :
      Lists front (line :: lines)
        (⟨String.ofList body, .behind (String.ofList (front ++ lead)) (String.ofList body)⟩ :: items)

/-- The items of a listing: its lines hold them, they stand where their spans say, and they are in
the order of the source. -/
structure IsListing (source : String) (items : List (Spanned String)) : Prop where
  /-- The source is cut at its line ends, and each line has an item or is blank. -/
  lines : ∃ lines, source.toList = ['\n'].intercalate lines ∧ (∀ line ∈ lines, '\n' ∉ line) ∧
    Lists [] lines items
  /-- The span of each item covers it. -/
  covers : ∀ item ∈ items, item.span.Covers source item.node
  /-- The spans are in order, and none is empty. -/
  ordered : items.Pairwise fun left right => left.span.stop < right.span.start
  /-- No span is empty. -/
  filled : ∀ item ∈ items, item.span.start < item.span.stop

/-- Lines with the offsets of their first bytes, of which the first one is `start`. -/
def linesFrom (start : Nat) : List (List Char) → List (Nat × List Char)
  | [] => []
  | line :: rest => (start, line) :: linesFrom (start + utf8Length line + 1) rest

section Listing

variable {start : Nat} {current text front : List Char} {lines : List (List Char)}
variable {items : List (Spanned String)}

/-- The rest of a text is cut at its line ends, and each line starts behind the one before. -/
theorem exists_linesInto (done : List (Nat × List Char)) (start : Nat) (whole : '\n' ∉ current) :
    ∃ line lines, current.reverse ++ text = ['\n'].intercalate (line :: lines) ∧
      (∀ other ∈ line :: lines, '\n' ∉ other) ∧
      linesInto done start current text = done.reverse ++ linesFrom start (line :: lines) := by
  induction text generalizing done start current with
  | nil =>
    refine ⟨current.reverse, [], ?_, ?_, ?_⟩
    · rw [List.append_nil, List.intercalate_singleton]
    · exact List.forall_mem_singleton.mpr (mt List.mem_reverse.mp whole)
    · rw [linesInto, List.reverse_cons]
      rfl
  | cons c rest ih =>
    by_cases newline : c = '\n'
    · obtain ⟨line, lines, split, own, cut⟩ := ih ((start, current.reverse) :: done)
        (start + utf8Length current + 1) List.not_mem_nil
      refine ⟨current.reverse, line :: lines, ?_, ?_, ?_⟩
      · rw [List.intercalate_cons_cons, ← split, newline]
        simp
      · exact List.forall_mem_cons.mpr ⟨mt List.mem_reverse.mp whole, own⟩
      · have next : linesFrom start (current.reverse :: line :: lines) =
            (start, current.reverse) ::
              linesFrom (start + utf8Length current + 1) (line :: lines) := by
          rw [linesFrom, utf8Length_reverse]
        rw [linesInto, if_pos newline, cut, List.reverse_cons, List.append_assoc, next,
          List.singleton_append]
    · have longer : '\n' ∉ c :: current := by
        rw [List.mem_cons, not_or]
        exact ⟨fun same => newline same.symm, whole⟩
      obtain ⟨line, lines, split, own, cut⟩ := ih done start longer
      refine ⟨line, lines, ?_, own, ?_⟩
      · rw [← split, List.reverse_cons, List.append_assoc, List.singleton_append]
      · rw [linesInto, if_neg newline, cut]

/-- The length of a text with one more line. -/
theorem utf8Length_line (front line : List Char) :
    utf8Length (front ++ line ++ ['\n']) = utf8Length front + utf8Length line + 1 := by
  rw [utf8Length_append, utf8Length_append]
  rfl

/-- The span of an item behind a text and the white space of its line. -/
theorem behind_ofList (front lead body : List Char) :
    Span.behind (String.ofList (front ++ lead)) (String.ofList body) =
      ⟨utf8Length front + utf8Length lead,
        utf8Length front + utf8Length lead + utf8Length body⟩ := by
  rw [Span.behind, ← String.ofList_append, ← utf8Length_eq, ← utf8Length_eq,
    utf8Length_append (front ++ lead), utf8Length_append]

/-- The items of lines behind a text. -/
theorem lists_linesFrom (front : List Char) (lines : List (List Char)) :
    Lists front lines
      ((linesFrom (utf8Length front) lines).filterMap fun line => lineItem? line.1 line.2) := by
  induction lines generalizing front with
  | nil => exact .nil
  | cons line rest ih =>
    have others := ih (front ++ line ++ ['\n'])
    rw [utf8Length_line] at others
    rcases lineItem?_cases (utf8Length front) line with
      ⟨blank, none⟩ | ⟨lead, body, own, item⟩
    · simp only [linesFrom, List.filterMap_cons, none]
      exact .blank blank others
    · simp only [linesFrom, List.filterMap_cons, item, ← behind_ofList]
      exact .item own others

/-- The first of the lines behind a text stands behind it. -/
theorem exists_behind_line {line : List Char} {rest : List (List Char)}
    (own : text = front ++ ['\n'].intercalate (line :: rest)) :
    ∃ back, text = front ++ line ++ back := by
  cases rest with
  | nil => exact ⟨[], by rw [own, List.intercalate_singleton, List.append_nil]⟩
  | cons next rest =>
    refine ⟨['\n'] ++ ['\n'].intercalate (next :: rest), ?_⟩
    rw [own, List.intercalate_cons_cons]
    simp only [List.append_assoc]

/-- The other lines behind a text stand behind the first one. -/
theorem behind_lines {line : List Char} {rest : List (List Char)}
    (own : text = front ++ ['\n'].intercalate (line :: rest)) (some : rest ≠ []) :
    text = front ++ line ++ ['\n'] ++ ['\n'].intercalate rest := by
  rw [own, List.intercalate_cons_of_ne_nil some]
  simp only [List.append_assoc]

/-- The item of a line stands in the line, where its span says. -/
theorem IsItemLine.covers {source : String} {line lead body : List Char}
    (own : IsItemLine line lead body) (behind : ∃ back, source.toList = front ++ line ++ back) :
    (Span.behind (String.ofList (front ++ lead)) (String.ofList body)).Covers source
        (String.ofList body) ∧
      utf8Length lead + utf8Length body ≤ utf8Length line := by
  obtain ⟨trail, ⟨comment, cut, -⟩, -⟩ := own.split
  obtain ⟨back, split⟩ := behind
  constructor
  · rw [behind_ofList, ← utf8Length_append]
    refine @Span.covers_of_append source (front ++ lead) body (trail ++ comment ++ back) ?_
    rw [split, cut]
    simp only [List.append_assoc]
  · rw [cut, utf8Length_append, utf8Length_append, utf8Length_append]
    omega

/-- The items of lines behind a text stand behind it, in order, where their spans say. -/
theorem Lists.places {source : String} (lists : Lists front lines items)
    (whole : lines ≠ [] → source.toList = front ++ ['\n'].intercalate lines) :
    (∀ item ∈ items, item.span.Covers source item.node ∧
        utf8Length front ≤ item.span.start ∧ item.span.start < item.span.stop) ∧
      items.Pairwise fun left right => left.span.stop < right.span.start := by
  induction lists with
  | nil => exact ⟨fun _ member => by contradiction, .nil⟩
  | @blank front line rest items own others ih =>
    obtain ⟨each, ordered⟩ := ih (behind_lines (whole (List.cons_ne_nil _ _)))
    refine ⟨fun item member => ?_, ordered⟩
    obtain ⟨covers, start, filled⟩ := each item member
    rw [utf8Length_line] at start
    exact ⟨covers, by omega, filled⟩
  | @item front line lead body rest items own others ih =>
    have inSource := whole (List.cons_ne_nil _ _)
    obtain ⟨each, ordered⟩ := ih (behind_lines inSource)
    obtain ⟨covers, inside⟩ := own.covers (exists_behind_line inSource)
    have positive := utf8Length_pos own.filled
    rw [behind_ofList] at covers ⊢
    refine ⟨List.forall_mem_cons.mpr ⟨⟨covers, Nat.le_add_right _ _,
      Nat.lt_add_of_pos_right positive⟩, fun item member => ?_⟩,
      List.pairwise_cons.mpr ⟨fun item member => ?_, ordered⟩⟩
    · obtain ⟨covers, start, filled⟩ := each item member
      rw [utf8Length_line] at start
      exact ⟨covers, by omega, filled⟩
    · have start := (each item member).2.1
      rw [utf8Length_line] at start
      dsimp only
      omega

/-- The items of lines are read as they stand. -/
theorem Lists.legible (lists : Lists front lines items) (whole : ∀ line ∈ lines, '\n' ∉ line) :
    ∀ item ∈ items, Legible item.node.toList ∧ '\n' ∉ item.node.toList := by
  induction lists with
  | nil => exact fun _ member => by contradiction
  | blank own others ih => exact ih fun line member => whole line (List.mem_cons_of_mem _ member)
  | @item front line lead body rest items own others ih =>
    obtain ⟨first, later⟩ := List.forall_mem_cons.mp whole
    obtain ⟨trail, ⟨comment, cut, -⟩, -⟩ := own.split
    refine List.forall_mem_cons.mpr ⟨?_, ih later⟩
    rw [String.toList_ofList]
    refine ⟨own.legible, fun member => first ?_⟩
    rw [cut]
    simp only [List.mem_append]
    exact .inl (.inl (.inr member))

end Listing

/-- A line that is read as it stands is a listing of one item. -/
theorem items_legible {text : String} (legible : Legible text.toList) (whole : '\n' ∉ text.toList) :
    items text = [⟨text, .behind "" text⟩] := by
  obtain ⟨line, lines, split, -, cut⟩ :=
    @exists_linesInto [] text.toList [] 0 List.not_mem_nil
  rw [List.reverse_nil, List.nil_append] at split cut
  cases lines with
  | nil =>
    rw [List.intercalate_singleton] at split
    have place : Span.behind "" text = ⟨0, 0 + utf8Length text.toList⟩ := by
      rw [Span.behind, String.empty_append, utf8Length_toList, Nat.zero_add]
      rfl
    rw [items, Text.lines, cut, ← split, place]
    simp only [linesFrom, List.filterMap_cons, legible.lineItem?_eq, String.ofList_toList,
      List.filterMap_nil]
  | cons next lines =>
    rw [List.intercalate_cons_cons] at split
    exact absurd (by rw [split]; simp) whole

/-- The items of a text are those of its lines, where they stand in it. -/
theorem isListing_items (source : String) : IsListing source (items source) := by
  obtain ⟨line, lines, split, whole, cut⟩ :=
    @exists_linesInto [] source.toList [] 0 List.not_mem_nil
  have lists := lists_linesFrom [] (line :: lines)
  have same : items source =
      (linesFrom 0 (line :: lines)).filterMap fun line => lineItem? line.1 line.2 := by
    rw [items, Text.lines, cut]
    rfl
  obtain ⟨each, ordered⟩ := lists.places fun _ => split
  rw [same]
  exact ⟨⟨line :: lines, split, whole, lists⟩, fun item member => (each item member).1, ordered,
    fun item member => (each item member).2.2⟩

end JackToolchain.Text
