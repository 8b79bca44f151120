import JackToolchain.Jack.Grammar
import JackToolchain.Proofs.Outcome

/-!
# Places of what readers take

`Consumes` says which lexemes a reader takes from the front of those that are left, with their
places, in terms of its result. It is finer than a logic of lexemes alone, because a tree keeps the
places of its names and of the lexemes at the ends of its parts. The place of the last lexeme taken
is the one that the cursor holds, which is where a reader gets the end of a span from.
-/
namespace JackToolchain.Jack

/-- The place of the last of the lexemes, or the given one if there is none. -/
def lastPlace (last : Span) (taken : List (Spanned Lexeme)) : Span :=
  taken.foldl (fun _ token => token.span) last

/-- The span from the first of the lexemes to the last one. -/
def spanOf : List (Spanned Lexeme) → Span
  | [] => .nowhere
  | first :: rest => first.span.merge (lastPlace first.span rest)

/-- Taking lexemes leads from one cursor to another. -/
structure Cursor.Passes (cursor : Cursor) (taken : List (Spanned Lexeme)) (after : Cursor) :
    Prop where
  /-- They are at the front of those that are left. -/
  rest : cursor.rest = taken ++ after.rest
  /-- The place of the last one is kept. -/
  last : after.last = lastPlace cursor.last taken

/-- A reader takes lexemes that, with their places, mean its result. -/
def Consumes {α : Type} (meant : List (Spanned Lexeme) → α → Prop) (reader : Reader α) : Prop :=
  ∀ cursor value after, reader.run cursor = .ok (value, after) →
    ∃ taken, cursor.Passes taken after ∧ meant taken value

/-- A reader takes lexemes that mean its result if the next one is the given one. -/
def ConsumesFrom {α : Type} (found : Lexeme) (meant : List (Spanned Lexeme) → α → Prop)
    (reader : Reader α) : Prop :=
  ∀ cursor value after, cursor.next.node = found → reader.run cursor = .ok (value, after) →
    ∃ taken, cursor.Passes taken after ∧ meant taken value

/-- Items in consecutive parts, of which each means a value. -/
inductive Consecutive {ι α : Type} (meant : List ι → α → Prop) : List ι → List α → Prop
  | nil : Consecutive meant [] []
  | cons {front back : List ι} {value : α} {values : List α} (first : meant front value)
      (rest : Consecutive meant back values) : Consecutive meant (front ++ back) (value :: values)

/-- Lexemes in parts with commas between them, of which each means a value. -/
inductive Separated {α : Type} (meant : List (Spanned Lexeme) → α → Prop) :
    List (Spanned Lexeme) → List α → Prop
  | last {taken : List (Spanned Lexeme)} {value : α} (own : meant taken value) :
      Separated meant taken [value]
  | cons {front back : List (Spanned Lexeme)} {comma : Spanned Lexeme} {value : α}
      {values : List α} (first : meant front value) (mark : comma.node = .symbol .comma)
      (rest : Separated meant back values) :
      Separated meant (front ++ comma :: back) (value :: values)

/-- The token of a name. -/
def nameToken (name : Name) : Spanned Lexeme := ⟨.identifier name.node, name.span⟩

section Cursors

variable {cursor middle after : Cursor} {front back : List (Spanned Lexeme)} {found : Lexeme}

/-- The span of one lexeme is its place. -/
theorem spanOf_singleton (token : Spanned Lexeme) : spanOf [token] = token.span := by
  rw [spanOf, lastPlace, List.foldl_nil, Span.merge, Nat.min_self, Nat.max_self]

/-- Taking nothing leaves a cursor where it is. -/
theorem Cursor.Passes.refl (cursor : Cursor) : cursor.Passes [] cursor := ⟨rfl, rfl⟩

/-- Lexemes are taken one after the other. -/
theorem Cursor.Passes.trans (first : cursor.Passes front middle)
    (second : middle.Passes back after) : cursor.Passes (front ++ back) after := by
  constructor
  · rw [first.rest, second.rest, List.append_assoc]
  · rw [second.last, first.last, lastPlace, lastPlace, lastPlace, List.foldl_append]

/-- A next lexeme that is not the end of the text can be taken. -/
theorem Cursor.passes_advance (same : cursor.next.node = found) (some : found ≠ .eof) :
    cursor.Passes [cursor.next] cursor.advance := by
  obtain ⟨rest, last⟩ := cursor
  cases rest with
  | nil => exact absurd same.symm some
  | cons token rest => exact ⟨rfl, rfl⟩

/-- What a reader takes spans from the next lexeme to the one that it takes last. -/
theorem Cursor.Passes.spanOf_eq (passes : cursor.Passes front after) (some : front ≠ []) :
    spanOf front = cursor.next.span.merge after.last := by
  cases front with
  | nil => contradiction
  | cons token rest =>
    have next : cursor.next = token := by
      rw [Cursor.next, passes.rest]
      rfl
    rw [next, passes.last]
    rfl

end Cursors

section Rules

variable {α β : Type} {meant meant' : List (Spanned Lexeme) → α → Prop}
variable {meant₂ : List (Spanned Lexeme) → β → Prop}
variable {reader : Reader α} {next : α → Reader β} {found : Lexeme}

/-- A reader that takes nothing. -/
theorem consumes_pure {value : α} (own : meant [] value) : Consumes meant (pure value) := by
  intro cursor result after run
  obtain ⟨rfl, rfl⟩ := Prod.mk.inj (Except.ok.inj run)
  exact ⟨[], .refl _, own⟩

/-- Two readers one after the other. -/
theorem Consumes.bind (first : Consumes meant reader)
    (second : ∀ front value, meant front value →
      Consumes (fun back result => meant₂ (front ++ back) result) (next value)) :
    Consumes meant₂ (reader >>= next) := by
  intro cursor result after run
  obtain ⟨⟨value, middle⟩, made, rest⟩ := bind_eq_ok.mp run
  obtain ⟨front, begins, own⟩ := first cursor value middle made
  obtain ⟨back, goesOn, last⟩ := second front value own middle result after rest
  exact ⟨front ++ back, begins.trans goesOn, last⟩

/-- Lexemes mean whatever follows from what they mean. -/
theorem Consumes.weaken (first : Consumes meant reader)
    (less : ∀ taken value, meant taken value → meant' taken value) : Consumes meant' reader := by
  intro cursor value after run
  obtain ⟨taken, passes, own⟩ := first cursor value after run
  exact ⟨taken, passes, less taken value own⟩

/-- What a reader does, it does whatever the next lexeme is. -/
theorem Consumes.from (consumes : Consumes meant reader) : ConsumesFrom found meant reader :=
  fun cursor value after _ run => consumes cursor value after run

/-- A reader that looks at the next lexeme. -/
theorem consumes_peek {choose : Lexeme → Reader α}
    (each : ∀ found, ConsumesFrom found meant (choose found)) :
    Consumes meant (Reader.peek >>= choose) :=
  fun cursor value after run => each cursor.next.node cursor value after rfl run

/-- A reader that looks at the next lexeme when that is known. -/
theorem consumesFrom_peek {choose : Lexeme → Reader α}
    (own : ConsumesFrom found meant (choose found)) :
    ConsumesFrom found meant (Reader.peek >>= choose) := by
  intro cursor value after same run
  subst same
  exact own cursor value after rfl run

/-- A reader that takes the next lexeme. -/
theorem consumesFrom_advance (some : found ≠ .eof)
    (others : ∀ token : Spanned Lexeme, token.node = found →
      Consumes (fun taken result => meant (token :: taken) result) reader) :
    ConsumesFrom found meant (Reader.advance >>= fun _ => reader) := by
  intro cursor value after same run
  obtain ⟨taken, goesOn, own⟩ := others cursor.next same cursor.advance value after run
  exact ⟨cursor.next :: taken, (cursor.passes_advance same some).trans goesOn, own⟩

/-- A reader that refuses the next lexeme reads nothing. -/
theorem consumes_refuse {reason : Malformed} : Consumes meant (Reader.refuse reason) := by
  intro cursor value after run
  cases run

/-- Taking a lexeme that may come next. -/
theorem consumes_accept {lexeme : Lexeme} (some : lexeme ≠ .eof) :
    Consumes (fun taken there => taken.map Spanned.node = if there then [lexeme] else [])
      (Reader.accept lexeme) := by
  refine consumes_peek fun found => ?_
  split
  · rename_i same
    subst same
    exact consumesFrom_advance some fun token same => consumes_pure (congrArg (· :: []) same)
  · exact Consumes.from (consumes_pure rfl)

/-- Taking a lexeme that must come next. -/
theorem consumes_expect {lexeme : Lexeme} (some : lexeme ≠ .eof) :
    Consumes (fun taken _ => taken.map Spanned.node = [lexeme]) (Reader.expect lexeme) := by
  refine (consumes_accept some).bind fun front there same => ?_
  cases there with
  | true =>
    apply consumes_pure
    rw [List.append_nil]
    exact same
  | false => exact consumes_peek fun found => consumes_refuse.from

/-- Taking a name, which must come next. -/
theorem consumes_identifier :
    Consumes (fun taken name => taken = [nameToken name]) Reader.identifier := by
  refine consumes_peek fun found => ?_
  split
  · intro cursor name after same run
    obtain ⟨rfl, rfl⟩ := Prod.mk.inj (Except.ok.inj run)
    have node : [cursor.next] = [(⟨_, cursor.next.span⟩ : Spanned Lexeme)] :=
      congrArg (fun node => [(⟨node, cursor.next.span⟩ : Spanned Lexeme)]) same
    exact ⟨[cursor.next], cursor.passes_advance same (by simp), node⟩
  · exact consumes_refuse.from

/-- A reader with the span of what it takes. -/
theorem consumes_spanned {item : Reader (Span → α)}
    (own : Consumes (fun taken build => taken ≠ [] ∧ meant taken (build (spanOf taken))) item) :
    Consumes meant (Reader.spanned item) := by
  intro cursor value after run
  obtain ⟨⟨build, middle⟩, made, rest⟩ := bind_eq_ok.mp run
  obtain ⟨rfl, rfl⟩ := Prod.mk.inj (Except.ok.inj rest)
  obtain ⟨taken, passes, some, means⟩ := own cursor build middle made
  rw [passes.spanOf_eq some] at means
  exact ⟨taken, passes, means⟩

/-- Repeating a reader takes the parts of the repetitions. -/
theorem consumes_repeatInto {more : Lexeme → Bool}
    (own : ∀ found, more found = true → ConsumesFrom found meant reader) (times : Nat)
    (done : List α) :
    Consumes (fun taken values => ∃ others, values = done.reverse ++ others ∧
        Consecutive meant taken others)
      (Reader.repeatInto more reader times done) := by
  have finished (done : List α) :
      Consumes (fun taken values => ∃ others, values = done.reverse ++ others ∧
        Consecutive meant taken others) (pure done.reverse) :=
    consumes_pure ⟨[], (List.append_nil _).symm, .nil⟩
  induction times generalizing done with
  | zero => exact finished done
  | succ times ih =>
    refine consumes_peek fun found => ?_
    split
    · rename_i goesOn
      intro cursor values after same run
      obtain ⟨⟨value, middle⟩, made, rest⟩ := bind_eq_ok.mp run
      obtain ⟨front, begins, first⟩ := own found goesOn cursor value middle same made
      obtain ⟨back, follows, others, rfl, parts⟩ := ih (value :: done) middle values after rest
      refine ⟨front ++ back, begins.trans follows, value :: others, ?_, .cons first parts⟩
      rw [List.reverse_cons, List.append_assoc, List.singleton_append]
    · exact (finished done).from

/-- Repeating a reader. -/
theorem consumes_repeat {more : Lexeme → Bool}
    (own : ∀ found, more found = true → ConsumesFrom found meant reader) :
    Consumes (Consecutive meant) (Reader.repeat more reader) := by
  intro cursor values after run
  obtain ⟨taken, passes, others, rfl, parts⟩ :=
    consumes_repeatInto own cursor.rest.length [] cursor values after run
  exact ⟨taken, passes, parts⟩

/-- Parts that begin with a comma each follow a part in front of them. -/
theorem Separated.of_consecutive {front back : List (Spanned Lexeme)} {value : α}
    {values : List α} (first : meant front value)
    (rest : Consecutive (fun taken value => ∃ comma part, taken = comma :: part ∧
      comma.node = .symbol .comma ∧ meant part value) back values) :
    Separated meant (front ++ back) (value :: values) := by
  induction rest generalizing front value with
  | nil =>
    rw [List.append_nil]
    exact .last first
  | cons head _ ih =>
    obtain ⟨comma, part, rfl, mark, own⟩ := head
    exact .cons first mark (ih own)

/-- Reading items with commas between them. -/
theorem consumes_commaSeparated (own : Consumes meant reader) :
    Consumes (Separated meant) (Reader.commaSeparated reader) := by
  refine own.bind fun front first good => ?_
  have item (found : Lexeme) (comma : decide (found = .symbol .comma) = true) :
      ConsumesFrom found
        (fun taken value => ∃ comma part, taken = comma :: part ∧
          comma.node = .symbol .comma ∧ meant part value)
        (Reader.advance >>= fun _ => reader) := by
    obtain rfl := of_decide_eq_true comma
    refine consumesFrom_advance (by simp) fun token mark => ?_
    exact own.weaken fun part value good => ⟨token, part, rfl, mark, good⟩
  refine (consumes_repeat item).bind fun back others parted => consumes_pure ?_
  rw [List.append_nil]
  exact .of_consecutive good parted

end Rules

end JackToolchain.Jack
