import JackToolchain.Proofs.Text.Listing

/-!
# Spans and the texts that they cover

Offsets count the bytes of UTF-8. A span covers a text of a source if this text stands there, and
it covers one text only. The items of a written listing cover their lines.
-/
namespace JackToolchain

/-! ## Lengths -/

section Length

variable (c : Char) (text front back : List Char)

/-- The length of a text is the number of its bytes. -/
theorem utf8Length_eq : utf8Length text = (String.ofList text).utf8ByteSize := by
  have more (size : Nat) : text.foldl (fun size c => size + c.utf8Size) size =
      size + (String.ofList text).utf8ByteSize := by
    induction text generalizing size with
    | nil => rfl
    | cons c rest ih =>
      have first : String.ofList (c :: rest) = String.singleton c ++ String.ofList rest := by
        rw [← String.toList_inj]
        simp
      rw [List.foldl_cons, ih, first, String.utf8ByteSize_append, String.utf8ByteSize_singleton,
        Nat.add_assoc]
  exact (more 0).trans (Nat.zero_add _)

/-- The length of a text that is given as a string. -/
theorem utf8Length_toList (text : String) : utf8Length text.toList = text.utf8ByteSize := by
  rw [utf8Length_eq, String.ofList_toList]

/-- Lengths add up. -/
theorem utf8Length_append : utf8Length (front ++ back) = utf8Length front + utf8Length back := by
  rw [utf8Length_eq, utf8Length_eq, utf8Length_eq, String.ofList_append,
    String.utf8ByteSize_append]

/-- One character more makes a text longer by its size. -/
theorem utf8Length_cons : utf8Length (c :: text) = c.utf8Size + utf8Length text := by
  rw [← List.singleton_append, utf8Length_append]
  exact congrArg (· + _) (Nat.zero_add _)

/-- A text is as long in reverse. -/
theorem utf8Length_reverse : utf8Length text.reverse = utf8Length text := by
  induction text with
  | nil => rfl
  | cons c rest ih =>
    rw [List.reverse_cons, utf8Length_append, ih, utf8Length_cons, utf8Length_cons, Nat.add_comm]
    rfl

/-- Only the empty text has no length. -/
theorem eq_nil_of_utf8Length {text : List Char} (empty : utf8Length text = 0) : text = [] := by
  cases text with
  | nil => rfl
  | cons c rest =>
    rw [utf8Length_cons] at empty
    have positive := c.utf8Size_pos
    omega

/-- A text that is not empty has a length. -/
theorem utf8Length_pos {text : List Char} (filled : text ≠ []) : 0 < utf8Length text :=
  Nat.pos_of_ne_zero fun empty => filled (eq_nil_of_utf8Length empty)

/-- Texts of one length at the front of one text are the same. -/
theorem eq_of_utf8Length {front other back rest : List Char}
    (same : front ++ back = other ++ rest) (length : utf8Length front = utf8Length other) :
    front = other := by
  rcases List.append_eq_append_iff.mp same with ⟨gap, rfl, -⟩ | ⟨gap, rfl, -⟩
  · rw [utf8Length_append] at length
    have none : gap = [] := eq_nil_of_utf8Length (by omega)
    rw [none, List.append_nil]
  · rw [utf8Length_append] at length
    have none : gap = [] := eq_nil_of_utf8Length (by omega)
    rw [none, List.append_nil]

end Length

/-! ## Covering -/

/-- The span of a text that stands behind another one. -/
def Span.behind (front text : String) : Span :=
  ⟨front.utf8ByteSize, (front ++ text).utf8ByteSize⟩

/-- The text stands in the source where the span says. -/
def Span.Covers (span : Span) (source text : String) : Prop :=
  ∃ front back, source = front ++ text ++ back ∧ span = .behind front text

/-- A span covers one text only. -/
theorem Span.Covers.unique {span : Span} {source text other : String}
    (own : span.Covers source text) (second : span.Covers source other) : text = other := by
  obtain ⟨front, back, rfl, rfl⟩ := own
  obtain ⟨before, after, same, place⟩ := second
  rw [Span.behind, Span.behind, Span.mk.injEq, String.utf8ByteSize_append,
    String.utf8ByteSize_append] at place
  simp only [← utf8Length_toList] at place
  rw [← String.toList_inj] at same
  simp only [String.toList_append, List.append_assoc] at same
  have start : front.toList = before.toList := eq_of_utf8Length same place.1
  rw [start, List.append_cancel_left_eq] at same
  apply String.toList_inj.mp
  exact eq_of_utf8Length same (by omega)

/-- A part of a source is covered by the span from where it starts on, as long as it is. -/
theorem Span.covers_of_append {source : String} {front text back : List Char}
    (whole : source.toList = front ++ text ++ back) :
    Span.Covers ⟨utf8Length front, utf8Length front + utf8Length text⟩ source
      (String.ofList text) := by
  refine ⟨String.ofList front, String.ofList back, ?_, ?_⟩
  · rw [← String.toList_inj, whole]
    simp
  · rw [Span.behind, ← String.ofList_append, ← utf8Length_eq, ← utf8Length_eq, utf8Length_append]

/-- A span that covers a text does not end in front of its start, nor behind the source. -/
theorem Span.Covers.bounds {span : Span} {source text : String}
    (covers : span.Covers source text) :
    span.start ≤ span.stop ∧ span.stop ≤ source.utf8ByteSize := by
  obtain ⟨front, back, rfl, rfl⟩ := covers
  simp only [Span.behind, String.utf8ByteSize_append]
  omega

/-! ## Listings -/

namespace Text

section Lines

variable {done : List (Nat × List Char)} {start : Nat} {current line : List Char}

/-- A line is cut off at its end, and the next one starts behind it. -/
theorem linesInto_line (whole : '\n' ∉ line) (rest : List Char) :
    linesInto done start current (line ++ '\n' :: rest) =
      linesInto ((start, current.reverse ++ line) :: done)
        (start + utf8Length current + utf8Length line + 1) [] rest := by
  induction line generalizing current with
  | nil =>
    rw [List.nil_append, linesInto, if_pos rfl, List.append_nil]
    rfl
  | cons c line ih =>
    have differ : c ≠ '\n' := fun same => whole (same ▸ List.mem_cons_self)
    have shorter : '\n' ∉ line := fun member => whole (List.mem_cons_of_mem _ member)
    rw [List.cons_append, linesInto, if_neg differ, ih shorter, List.reverse_cons,
      List.append_assoc, List.singleton_append, utf8Length_cons, utf8Length_cons]
    congr 1
    omega

/-- A line that is read as it stands is the item on it. -/
theorem Legible.lineItem?_eq (legible : Legible line) :
    lineItem? start line = some ⟨String.ofList line, ⟨start, start + utf8Length line⟩⟩ := by
  have filled : line.isEmpty = false := List.isEmpty_eq_false_iff.mpr legible.filled
  have noBlank : line.takeWhile isBlank = [] := by
    cases line with
    | nil => rfl
    | cons c rest => exact List.takeWhile_cons_of_neg (by simp [legible.start c rfl])
  rw [lineItem?, uncommented_eq_self legible.bare, trim_eq_self legible.start legible.stop, filled,
    noBlank]
  rfl

end Lines

/-- Values that are written to a line each, with the spans of their lines; `front` is the text in
front of them. -/
def placed {α : Type} (text : α → String) (front : String) : List α → List (Spanned α)
  | [] => []
  | value :: rest =>
    ⟨value, .behind front (text value)⟩ :: placed text (front ++ text value ++ "\n") rest

/-- The text of values that are written to a line each. -/
def written {α : Type} (text : α → String) (values : List α) : String :=
  String.join (values.map fun value => text value ++ "\n")

section Placed

variable {α : Type} {text : α → String} {values : List α}

/-- The first value stands on the first line. -/
theorem written_cons (value : α) (rest : List α) :
    written text (value :: rest) = text value ++ "\n" ++ written text rest := by
  rw [← String.toList_inj]
  simp [written, String.toList_join]

/-- Values that are written one behind the other. -/
theorem written_append (front back : List α) :
    written text (front ++ back) = written text front ++ written text back := by
  rw [← String.toList_inj]
  simp [written, String.toList_join]

/-- The placed values are the values. -/
theorem map_node_placed (front : String) :
    (placed text front values).map (fun item => item.node) = values := by
  induction values generalizing front with
  | nil => rfl
  | cons value rest ih => exact congrArg (value :: ·) (ih _)

/-- A value stands behind the lines of those in front of it. -/
theorem getElem?_placed (front : String) (before : List α) (value : α) (after : List α) :
    (placed text front (before ++ value :: after))[before.length]? =
      some ⟨value, .behind (front ++ written text before) (text value)⟩ := by
  induction before generalizing front with
  | nil =>
    have none : written text ([] : List α) = "" := rfl
    rw [none, String.append_empty]
    rfl
  | cons other before ih =>
    rw [written_cons, ← String.append_assoc, ← String.append_assoc]
    exact ih _

/-- Reading what was written yields the texts of the values, each with its place. -/
theorem items_written (legible : ∀ value ∈ values, Legible (text value).toList)
    (whole : ∀ value ∈ values, '\n' ∉ (text value).toList) :
    items (written text values) =
      (placed text "" values).map fun item => ⟨text item.node, item.span⟩ := by
  have all (done : List (Nat × List Char)) (front : String) :
      (linesInto done front.utf8ByteSize [] (written text values).toList).filterMap
          (fun line => lineItem? line.1 line.2) =
        done.reverse.filterMap (fun line => lineItem? line.1 line.2) ++
          (placed text front values).map fun item => ⟨text item.node, item.span⟩ := by
    induction values generalizing done front with
    | nil =>
      -- The text behind the last line end is empty, and it holds no item.
      have last : lineItem? front.utf8ByteSize [] = none := rfl
      simp [written, linesInto, placed, last]
    | cons value rest ih =>
      have own := legible value List.mem_cons_self
      have next : front.utf8ByteSize + utf8Length [] + utf8Length (text value).toList + 1 =
          (front ++ text value ++ "\n").utf8ByteSize := by
        rw [utf8Length_toList, String.utf8ByteSize_append, String.utf8ByteSize_append]
        rfl
      have lines : (written text (value :: rest)).toList =
          (text value).toList ++ '\n' :: (written text rest).toList := by
        rw [written_cons]
        simp
      rw [lines, linesInto_line (whole value List.mem_cons_self), next,
        ih (fun value member => legible value (List.mem_cons_of_mem _ member))
          (fun value member => whole value (List.mem_cons_of_mem _ member)),
        List.reverse_nil, List.nil_append, List.reverse_cons, List.filterMap_append,
        List.append_assoc]
      congr 1
      simp only [List.filterMap_cons, own.lineItem?_eq, placed, List.map_cons, Span.behind,
        String.utf8ByteSize_append, utf8Length_toList, String.ofList_toList, List.filterMap_nil,
        List.singleton_append]
  exact all [] ""

end Placed

end Text

end JackToolchain
