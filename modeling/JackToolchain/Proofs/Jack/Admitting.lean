import JackToolchain.Proofs.Jack.Taking

/-!
# What readers admit

`Admits` says that a reader succeeds on lexemes that begin with the given ones, if what follows them
may stand behind them, and that it takes exactly the given ones. Most readers admit anything behind
what they take; a reader that ends with a choice does not admit a lexeme that would continue it.
-/
namespace JackToolchain.Jack

/-- A reader takes the given lexemes, whatever is left behind them, if it begins with a lexeme that
may follow. -/
def Admits {α : Type} (reader : Reader α) (front : List Lexeme) (follows : Lexeme → Prop)
    (proper : α → Prop) : Prop :=
  ∀ cursor back, cursor.lexemes = front ++ back → follows (back.headD .eof) →
    ∃ value after, reader.run cursor = .ok (value, after) ∧ after.lexemes = back ∧ proper value

/-- Any lexeme may follow. -/
def anything : Lexeme → Prop := fun _ => True

/-- The next lexeme is the first one that is left. -/
theorem Cursor.of_lexemes_eq_cons {cursor : Cursor} {first : Lexeme} {rest : List Lexeme}
    (left : cursor.lexemes = first :: rest) :
    cursor.next.node = first ∧ cursor.advance.lexemes = rest := by
  rw [cursor.node_next, left]
  obtain ⟨tokens, last⟩ := cursor
  cases tokens with
  | nil => contradiction
  | cons token tokens => exact ⟨rfl, (List.cons.inj left).2⟩

section Rules

variable {α β : Type} {reader : Reader α} {next : α → Reader β} {choose : Lexeme → Reader α}
variable {front back rest : List Lexeme} {first : Lexeme}
variable {follows follows₂ : Lexeme → Prop} {proper : α → Prop} {proper₂ : β → Prop}

/-- A reader that takes nothing. -/
theorem admits_pure {value : α} (own : proper value) : Admits (pure value) [] follows proper :=
  fun cursor _ left _ => ⟨value, cursor, rfl, left, own⟩

/-- Two readers one after the other: the second one begins with what may follow the first. -/
theorem Admits.bind (own : Admits reader front follows proper)
    (others : ∀ value, proper value → Admits (next value) back follows₂ proper₂)
    (joins : ∀ found, follows₂ found → follows (back.headD found)) :
    Admits (reader >>= next) (front ++ back) follows₂ proper₂ := by
  intro cursor behind left may
  rw [List.append_assoc] at left
  have mayFirst : follows ((back ++ behind).headD .eof) := by
    cases back with
    | nil => exact joins _ may
    | cons first rest => exact joins _ may
  obtain ⟨value, middle, run, middleLeft, good⟩ := own cursor (back ++ behind) left mayFirst
  obtain ⟨result, after, goesOn, afterLeft, last⟩ := others value good middle behind middleLeft may
  exact ⟨result, after, bind_eq_ok.mpr ⟨(value, middle), run, goesOn⟩, afterLeft, last⟩

/-- A reader admits less behind what it takes. -/
theorem Admits.weaken (own : Admits reader front follows proper)
    (less : ∀ found, follows₂ found → follows found) {proper' : α → Prop}
    (more : ∀ value, proper value → proper' value) : Admits reader front follows₂ proper' := by
  intro cursor behind left may
  obtain ⟨value, after, run, afterLeft, good⟩ := own cursor behind left (less _ may)
  exact ⟨value, after, run, afterLeft, more value good⟩

/-- A reader that looks at the first of the lexemes it takes. -/
theorem admits_peek_head (starts : front.head? = some first)
    (own : Admits (choose first) front follows proper) :
    Admits (Reader.peek >>= choose) front follows proper := by
  intro cursor behind left may
  obtain ⟨rest, rfl⟩ := List.head?_eq_some_iff.mp starts
  obtain ⟨same, -⟩ := cursor.of_lexemes_eq_cons left
  subst same
  exact own cursor behind left may

/-- A reader that looks at the next lexeme. -/
theorem admits_peek (own : Admits (choose first) (first :: rest) follows proper) :
    Admits (Reader.peek >>= choose) (first :: rest) follows proper :=
  admits_peek_head rfl own

/-- A reader that looks at the next lexeme and takes nothing. -/
theorem admits_peek_nil (own : ∀ found, follows found → Admits (choose found) [] follows proper) :
    Admits (Reader.peek >>= choose) [] follows proper := by
  intro cursor behind left may
  have same : cursor.next.node = behind.headD .eof := by rw [cursor.node_next, left, List.nil_append]
  exact own cursor.next.node (same ▸ may) cursor behind left may

/-- A reader that takes the next lexeme. -/
theorem admits_advance {reader : Reader β} (own : Admits reader rest follows proper₂) :
    Admits (Reader.advance >>= fun _ => reader) (first :: rest) follows proper₂ := by
  intro cursor behind left may
  obtain ⟨-, others⟩ := cursor.of_lexemes_eq_cons left
  exact own cursor.advance behind others may

/-- Taking a lexeme that may come next, when it does. -/
theorem admits_accept {choose : Bool → Reader β} (own : Admits (choose true) rest follows proper₂) :
    Admits (Reader.accept first >>= choose) (first :: rest) follows proper₂ := by
  intro cursor behind left may
  obtain ⟨same, others⟩ := cursor.of_lexemes_eq_cons left
  obtain ⟨value, after, run, afterLeft, good⟩ := own cursor.advance behind others may
  refine ⟨value, after, bind_eq_ok.mpr ⟨(true, cursor.advance), ?_, run⟩, afterLeft, good⟩
  exact (run_accept first cursor).trans (by rw [if_pos same])

/-- Taking a lexeme that may come next, when it does not. -/
theorem admits_accept_other {choose : Bool → Reader β}
    (differs : ∀ found, follows found → rest.headD found ≠ first)
    (own : Admits (choose false) rest follows proper₂) :
    Admits (Reader.accept first >>= choose) rest follows proper₂ := by
  intro cursor behind left may
  have other : cursor.next.node ≠ first := by
    rw [cursor.node_next, left]
    cases rest with
    | nil => exact differs _ may
    | cons next rest => exact differs _ may
  obtain ⟨value, after, run, afterLeft, good⟩ := own cursor behind left may
  refine ⟨value, after, bind_eq_ok.mpr ⟨(false, cursor), ?_, run⟩, afterLeft, good⟩
  exact (run_accept first cursor).trans (by rw [if_neg other])

/-- Taking a lexeme that must come next. -/
theorem admits_expect {reader : Reader β} (own : Admits reader rest follows proper₂) :
    Admits (Reader.expect first >>= fun _ => reader) (first :: rest) follows proper₂ := by
  rw [Reader.expect, bind_assoc]
  exact admits_accept own

/-- Taking a name, which must come next. -/
theorem admits_identifier {choose : Name → Reader β} {text : String}
    (own : ∀ name : Name, name.node = text → Admits (choose name) rest follows proper₂) :
    Admits (Reader.identifier >>= choose) (.identifier text :: rest) follows proper₂ := by
  intro cursor behind left may
  obtain ⟨same, others⟩ := cursor.of_lexemes_eq_cons left
  obtain ⟨value, after, run, afterLeft, good⟩ :=
    own ⟨text, cursor.next.span⟩ rfl cursor.advance behind others may
  have taken : Reader.identifier.run cursor =
      .ok (⟨text, cursor.next.span⟩, cursor.advance) := by
    obtain ⟨tokens, last⟩ := cursor
    cases tokens with
    | nil => contradiction
    | cons token tokens =>
      obtain ⟨node, span⟩ := token
      obtain rfl : node = .identifier text := same
      rfl
  exact ⟨value, after, bind_eq_ok.mpr ⟨_, taken, run⟩, afterLeft, good⟩

/-- A reader with the span of what it takes. -/
theorem admits_spanned {item : Reader (Span → α)}
    (own : Admits item front follows fun build => ∀ span, proper (build span)) :
    Admits (Reader.spanned item) front follows proper := by
  intro cursor behind left may
  obtain ⟨build, after, run, afterLeft, good⟩ := own cursor behind left may
  exact ⟨_, after, bind_eq_ok.mpr ⟨(build, after), run, rfl⟩, afterLeft, good _⟩

/-! ## Repetition -/

variable {ι : Type} {write : ι → List Lexeme} {each : ι → α → Prop} {more : Lexeme → Bool}

/-- Repeating a reader, often enough. -/
theorem admits_repeatInto {items : List ι} (done : List α) {times : Nat}
    (own : ∀ item ∈ items, Admits reader (write item) follows (each item))
    (starts : ∀ item ∈ items, ∃ first rest, write item = first :: rest ∧ more first = true ∧
      follows first) (enough : items.length ≤ times) :
    Admits (Reader.repeatInto more reader times done) (items.flatMap write)
      (fun found => follows found ∧ more found = false)
      (fun values => ∃ others, values = done.reverse ++ others ∧ List.Forall₂ each items others) := by
  induction items generalizing done times with
  | nil =>
    have finished : (done.reverse : List α) = done.reverse ++ [] := (List.append_nil _).symm
    cases times with
    | zero => exact admits_pure ⟨[], finished, .nil⟩
    | succ times =>
      refine admits_peek_nil fun found may => ?_
      rw [may.2, if_neg (by decide)]
      exact admits_pure ⟨[], finished, .nil⟩
  | cons item items ih =>
    obtain ⟨ownFirst, ownOthers⟩ := List.forall_mem_cons.mp own
    obtain ⟨startsFirst, startsOthers⟩ := List.forall_mem_cons.mp starts
    obtain ⟨first, rest, written, goesOn, -⟩ := startsFirst
    obtain ⟨times, rfl⟩ : ∃ fewer, times = fewer + 1 :=
      Nat.exists_eq_add_one.mpr (Nat.lt_of_lt_of_le (Nat.zero_lt_succ _) enough)
    have first_ : Admits reader (first :: rest) follows (each item) := written ▸ ownFirst
    rw [List.flatMap_cons, written, List.cons_append, Reader.repeatInto]
    refine admits_peek ?_
    rw [goesOn, if_pos rfl]
    refine first_.bind (fun value good => ?_) fun found may => ?_
    · refine (ih (value :: done) ownOthers startsOthers (Nat.le_of_succ_le_succ enough)).weaken
        (fun _ may => may) fun values parts => ?_
      obtain ⟨others, rfl, all⟩ := parts
      refine ⟨value :: others, ?_, .cons good all⟩
      rw [List.reverse_cons, List.append_assoc, List.singleton_append]
    · cases items with
      | nil => exact may.1
      | cons second others =>
        obtain ⟨next, rest, written, -, joins⟩ := startsOthers second List.mem_cons_self
        rw [List.flatMap_cons, written]
        exact joins

/-- Items take a lexeme each. -/
theorem length_le_flatMap {items : List ι} (some : ∀ item ∈ items, write item ≠ []) :
    items.length ≤ (items.flatMap write).length := by
  induction items with
  | nil => exact Nat.le_refl _
  | cons item items ih =>
    obtain ⟨own, others⟩ := List.forall_mem_cons.mp some
    have first := List.length_pos_iff.mpr own
    have rest := ih others
    rw [List.flatMap_cons, List.length_append, List.length_cons]
    omega

/-- Repeating a reader. -/
theorem admits_repeat {items : List ι}
    (own : ∀ item ∈ items, Admits reader (write item) follows (each item))
    (starts : ∀ item ∈ items, ∃ first rest, write item = first :: rest ∧ more first = true ∧
      follows first) :
    Admits (Reader.repeat more reader) (items.flatMap write)
      (fun found => follows found ∧ more found = false) (List.Forall₂ each items) := by
  intro cursor behind left may
  have enough : items.length ≤ cursor.rest.length := by
    have counted := congrArg List.length left
    rw [Cursor.lexemes, List.length_map, List.length_append] at counted
    have few := length_le_flatMap fun item member => by
      obtain ⟨first, rest, written, -⟩ := starts item member
      exact written ▸ List.cons_ne_nil first rest
    omega
  obtain ⟨values, after, run, afterLeft, others, rfl, all⟩ :=
    admits_repeatInto [] own starts enough cursor behind left may
  exact ⟨_, after, run, afterLeft, all⟩

/-- Items with commas between them are a first item and others with a comma in front of each. -/
theorem intercalate_comma (item : ι) (items : List ι) :
    [Lexeme.symbol .comma].intercalate ((item :: items).map write) =
      write item ++ items.flatMap (fun item => .symbol .comma :: write item) := by
  induction items generalizing item with
  | nil => simp
  | cons second others ih =>
    have rest := ih second
    rw [List.map_cons] at rest
    rw [List.map_cons, List.map_cons, List.intercalate_cons_cons, rest]
    simp

/-- Reading items with commas between them. -/
theorem admits_commaSeparated {items : List ι} (some : items ≠ [])
    (own : ∀ item ∈ items, Admits reader (write item) follows (each item))
    (comma : follows (.symbol .comma)) :
    Admits (Reader.commaSeparated reader) ([Lexeme.symbol .comma].intercalate (items.map write))
      (fun found => follows found ∧ found ≠ .symbol .comma) (List.Forall₂ each items) := by
  cases items with
  | nil => contradiction
  | cons item items =>
    obtain ⟨ownFirst, ownOthers⟩ := List.forall_mem_cons.mp own
    rw [intercalate_comma]
    refine ownFirst.bind (fun first good => ?_) fun found may => ?_
    · rw [← List.append_nil (items.flatMap _)]
      refine Admits.bind (admits_repeat (fun item member => admits_advance (ownOthers item member))
        fun item _ => ⟨_, _, rfl, rfl, comma⟩) (fun others all => admits_pure (.cons good all)) ?_
      exact fun found may => ⟨may.1, decide_eq_false may.2⟩
    · cases items with
      | nil => exact may.1
      | cons second others => exact comma

end Rules

end JackToolchain.Jack
