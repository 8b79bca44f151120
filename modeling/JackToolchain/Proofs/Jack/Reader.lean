import JackToolchain.Jack.Grammar
import JackToolchain.Proofs.Outcome
import Mathlib.Algebra.GroupWithZero.Nat

/-!
# A logic of readers

`Reads` says what a reader makes of the lexemes of a scanned text: how many lexemes it takes at
least, which may depend on its result, and what holds of the result. The lexemes that are left are
never more than the text has characters, so whatever takes a lexeme for each of its parts has no
more parts than that. A reader that looks at the next lexeme first is judged case by case with
`ReadsFrom`.
-/
namespace JackToolchain.Jack

/-- Whether a text is a word of the language. -/
def isWord : List Char → Bool
  | [] => false
  | first :: rest => isWordStart first && rest.all isWordChar

/-- Lexemes of a text of at most so many characters: identifiers are words, numbers and characters
are constants. -/
def Lexeme.Fits (limit : Nat) : Lexeme → Prop
  | .identifier name => isWord name.toList = true
  | .integer value => value ≤ maxConstant
  | .string content => content.length ≤ limit ∧ ∀ c ∈ content.toList, c.toNat ≤ maxConstant
  | .keyword _ | .symbol _ | .eof => True

/-- The lexemes that are left fit, and there are no more of them than characters, apart from the end
of the text. -/
structure Cursor.Fits (limit : Nat) (cursor : Cursor) : Prop where
  /-- Their number. -/
  few : cursor.rest.length ≤ limit + 1
  /-- Each of them. -/
  each : ∀ lexeme ∈ cursor.rest, lexeme.node.Fits limit

/-- What a reader makes of lexemes that fit: it takes so many of them at least, and its result is
proper. -/
def Reads {α : Type} (limit : Nat) (taken : α → Nat) (proper : α → Prop) (reader : Reader α) :
    Prop :=
  ∀ cursor value after, reader.run cursor = .ok (value, after) → cursor.Fits limit →
    after.Fits limit ∧ after.rest.length + taken value ≤ cursor.rest.length ∧ proper value

/-- What a reader makes of lexemes that fit if the next one is the given one. -/
def ReadsFrom {α : Type} (found : Lexeme) (limit : Nat) (taken : α → Nat) (proper : α → Prop)
    (reader : Reader α) : Prop :=
  ∀ cursor value after, cursor.next.node = found → reader.run cursor = .ok (value, after) →
    cursor.Fits limit →
      after.Fits limit ∧ after.rest.length + taken value ≤ cursor.rest.length ∧ proper value

section Rules

variable {α β : Type} {limit : Nat} {taken taken' : α → Nat} {proper proper' : α → Prop}
variable {taken₂ : β → Nat} {proper₂ : β → Prop} {reader : Reader α} {next : α → Reader β}
variable {found : Lexeme}

/-- A reader that takes nothing. -/
theorem reads_pure {value : α} (none : taken value = 0) (own : proper value) :
    Reads limit taken proper (pure value) := by
  intro cursor result after run fits
  obtain ⟨rfl, rfl⟩ := Prod.mk.inj (Except.ok.inj run)
  exact ⟨fits, by omega, own⟩

/-- Two readers one after the other. -/
theorem Reads.bind (first : Reads limit taken proper reader)
    (second : ∀ value, proper value →
      Reads limit (fun result => taken₂ result - taken value) proper₂ (next value)) :
    Reads limit taken₂ proper₂ (reader >>= next) := by
  intro cursor result after run fits
  rw [StateT.run_bind] at run
  cases made : reader.run cursor with
  | error fault =>
    rw [made] at run
    contradiction
  | ok pair =>
    obtain ⟨value, middle⟩ := pair
    rw [made] at run
    obtain ⟨middleFits, firstTaken, own⟩ := first cursor value middle made fits
    obtain ⟨afterFits, secondTaken, last⟩ := second value own middle result after run middleFits
    dsimp only at secondTaken
    exact ⟨afterFits, by omega, last⟩

/-- A reader does what is less than what it does; it takes no more lexemes than there are. -/
theorem Reads.weaken (first : Reads limit taken proper reader)
    (less : ∀ value, proper value → taken value ≤ limit + 1 →
      proper' value ∧ taken' value ≤ taken value) : Reads limit taken' proper' reader := by
  intro cursor value after run fits
  obtain ⟨afterFits, firstTaken, own⟩ := first cursor value after run fits
  have few := fits.few
  obtain ⟨wanted, fewer⟩ := less value own (by omega)
  exact ⟨afterFits, by omega, wanted⟩

/-- A reader that looks at the next lexeme. -/
theorem reads_peek {choose : Lexeme → Reader α}
    (each : ∀ found, found.Fits limit → ReadsFrom found limit taken proper (choose found)) :
    Reads limit taken proper (Reader.peek >>= choose) := by
  intro cursor value after run fits
  have own : cursor.next.node.Fits limit := by
    unfold Cursor.next
    cases left : cursor.rest with
    | nil => trivial
    | cons lexeme rest => exact fits.each lexeme (left ▸ List.mem_cons_self)
  exact each cursor.next.node own cursor value after rfl run fits

/-- What a reader does, it does whatever the next lexeme is. -/
theorem Reads.from (reads : Reads limit taken proper reader) :
    ReadsFrom found limit taken proper reader :=
  fun cursor value after _ run fits => reads cursor value after run fits

/-- A reader that takes the next lexeme. -/
theorem readsFrom_advance (some : found ≠ .eof)
    (others : Reads limit (fun result => taken result - 1) proper reader) :
    ReadsFrom found limit taken proper (Reader.advance >>= fun _ => reader) := by
  intro cursor value after same run fits
  have left : ∃ lexeme rest, cursor.rest = lexeme :: rest := by
    unfold Cursor.next at same
    cases left : cursor.rest with
    | nil =>
      rw [left] at same
      exact absurd same.symm some
    | cons lexeme rest => exact ⟨lexeme, rest, rfl⟩
  obtain ⟨lexeme, rest, left⟩ := left
  have few := fits.few
  rw [left, List.length_cons] at few
  have advanced : cursor.advance.Fits limit := by
    constructor
    · rw [Cursor.advance, left, List.tail_cons]
      dsimp only
      omega
    · intro other member
      rw [Cursor.advance, left, List.tail_cons] at member
      exact fits.each other (left ▸ List.mem_cons_of_mem _ member)
  obtain ⟨afterFits, enough, own⟩ := others cursor.advance value after run advanced
  rw [Cursor.advance, left, List.tail_cons] at enough
  refine ⟨afterFits, ?_, own⟩
  rw [left, List.length_cons]
  dsimp only at enough
  omega

/-- A reader that refuses the next lexeme reads nothing. -/
theorem reads_refuse {reason : Malformed} : Reads limit taken proper (Reader.refuse reason) := by
  intro cursor value after run fits
  cases run

/-- Taking a lexeme that may come next. -/
theorem reads_accept {lexeme : Lexeme} (some : lexeme ≠ .eof) :
    Reads limit (fun taken => if taken then 1 else 0) (fun _ => True) (Reader.accept lexeme) := by
  refine reads_peek fun found _ => ?_
  split
  · rename_i same
    exact readsFrom_advance (same ▸ some) (reads_pure rfl trivial)
  · exact Reads.from (reads_pure rfl trivial)

/-- Taking a lexeme that must come next. -/
theorem reads_expect {lexeme : Lexeme} (some : lexeme ≠ .eof) :
    Reads limit (fun _ => 1) (fun _ => True) (Reader.expect lexeme) := by
  refine (reads_accept some).bind fun taken _ => ?_
  cases taken with
  | true => exact reads_pure rfl trivial
  | false => exact reads_peek fun found _ => reads_refuse.from

/-- A reader that looks at the place of the next lexeme. -/
theorem readsFrom_place {choose : Span → Reader α}
    (each : ∀ span, ReadsFrom found limit taken proper (choose span)) :
    ReadsFrom found limit taken proper (Reader.place >>= choose) :=
  fun cursor value after same run fits =>
    each cursor.next.span cursor value after same run fits

/-- Taking an identifier: it is a word. -/
theorem reads_identifier :
    Reads limit (fun _ => 1) (fun name => isWord name.node.toList = true) Reader.identifier := by
  refine reads_peek fun found own => ?_
  split
  · exact readsFrom_place fun span => readsFrom_advance (by simp) (reads_pure rfl own)
  · exact reads_refuse.from

/-- A reader with the span of what it takes. -/
theorem reads_spanned {least : Nat} {item : Reader (Span → α)}
    (own : Reads limit (fun _ => least) (fun build => ∀ span, proper (build span)) item) :
    Reads limit (fun _ => least) proper (Reader.spanned item) := by
  intro cursor value after run fits
  obtain ⟨⟨build, middle⟩, made, rest⟩ := bind_eq_ok.mp run
  obtain ⟨rfl, rfl⟩ := Prod.mk.inj (Except.ok.inj rest)
  obtain ⟨middleFits, enough, each⟩ := own cursor build middle made fits
  exact ⟨middleFits, enough, each _⟩

/-! ## Repetition -/

/-- What a list of results takes. -/
def takenBy (taken : α → Nat) (values : List α) : Nat := (values.map taken).sum

/-- What a longer list takes. -/
theorem takenBy_cons (taken : α → Nat) (value : α) (values : List α) :
    takenBy taken (value :: values) = taken value + takenBy taken values := by
  rw [takenBy, List.map_cons, List.sum_cons, takenBy]

/-- What results of one lexeme each take. -/
theorem takenBy_one (values : List α) : takenBy (fun _ => 1) values = values.length := by
  induction values with
  | nil => rfl
  | cons value rest ih =>
    rw [takenBy_cons, ih, List.length_cons]
    omega

/-- Taking the next lexeme, whatever it is. -/
theorem reads_advance : Reads limit (fun _ => 0) (fun _ => True) Reader.advance := by
  intro cursor value after run fits
  obtain ⟨rfl, rfl⟩ := Prod.mk.inj (Except.ok.inj run)
  have shorter : cursor.rest.tail.length ≤ cursor.rest.length := by
    rw [List.length_tail]
    omega
  have few := fits.few
  refine ⟨⟨?_, fun lexeme member => fits.each lexeme (List.mem_of_mem_tail member)⟩, shorter,
    trivial⟩
  change cursor.rest.tail.length ≤ limit + 1
  omega

/-- Repeating a reader takes what the repetitions take. -/
theorem reads_repeatInto {more : Lexeme → Bool} (own : Reads limit taken proper reader)
    (times : Nat) (done : List α) (ready : ∀ value ∈ done, proper value) :
    Reads limit (fun values => takenBy taken values - takenBy taken done)
      (fun values => ∀ value ∈ values, proper value)
      (Reader.repeatInto more reader times done) := by
  have finished (done : List α) (ready : ∀ value ∈ done, proper value) :
      Reads limit (fun values => takenBy taken values - takenBy taken done)
        (fun values => ∀ value ∈ values, proper value) (pure done.reverse) := by
    refine reads_pure ?_ fun value member => ready value (List.mem_reverse.mp member)
    rw [takenBy, takenBy, List.map_reverse, List.sum_reverse, Nat.sub_self]
  induction times generalizing done with
  | zero => exact finished done ready
  | succ times ih =>
    refine reads_peek fun found _ => ?_
    split
    · refine (own.bind fun value good => ?_).from
      have both : ∀ other ∈ value :: done, proper other := List.forall_mem_cons.mpr ⟨good, ready⟩
      refine (ih (value :: done) both).weaken fun values all _ => ⟨all, ?_⟩
      rw [takenBy_cons]
      omega
    · exact (finished done ready).from

/-- Repeating a reader. -/
theorem reads_repeat {more : Lexeme → Bool} (own : Reads limit taken proper reader) :
    Reads limit (takenBy taken) (fun values => ∀ value ∈ values, proper value)
      (Reader.repeat more reader) := by
  intro cursor values after run fits
  obtain ⟨afterFits, enough, all⟩ :=
    reads_repeatInto own cursor.rest.length [] (fun _ member => by contradiction) cursor values
      after run fits
  exact ⟨afterFits, enough, all⟩

/-- Reading items with commas between them. -/
theorem reads_commaSeparated (own : Reads limit taken proper reader) :
    Reads limit (takenBy taken) (fun values => values ≠ [] ∧ ∀ value ∈ values, proper value)
      (Reader.commaSeparated reader) := by
  refine own.bind fun first good => ?_
  have item : Reads limit taken proper (Reader.advance >>= fun _ => reader) :=
    reads_advance.bind fun _ _ => own
  refine (reads_repeat item).bind fun others all => reads_pure ?_ ?_
  · rw [takenBy_cons]
    omega
  · exact ⟨List.cons_ne_nil _ _, List.forall_mem_cons.mpr ⟨good, all⟩⟩

end Rules

/-! ## Items in parentheses

The arguments of a call and the parameters of a subroutine are read the same way, so every logic of
readers judges both at once.
-/

section Parentheses

open Reader

/-- Reads items in parentheses with commas between them; there may be none. -/
def parenthesizedItems {α : Type} (item : Reader α) : Reader (List α) := do
  expect (.symbol .parenOpen)
  let items ←
    if (← peek) = .symbol .parenClose then pure []
    else commaSeparated item
  expect (.symbol .parenClose)
  return items

/-- The arguments of a call are expressions in parentheses. -/
theorem arguments_eq (expression : Reader Expr) :
    arguments expression = parenthesizedItems expression :=
  rfl

/-- The parameters of a subroutine stand in parentheses. -/
theorem parameters_eq : parameters = parenthesizedItems parameter := rfl

variable {α : Type} {limit : Nat} {proper : α → Prop} {item : Reader α}

/-- Items in parentheses take a lexeme each, besides the parentheses. -/
theorem reads_parenthesized (own : Reads limit (fun _ => 1) proper item) :
    Reads limit (fun items => items.length + 2) (fun items => ∀ item ∈ items, proper item)
      (parenthesizedItems item) := by
  have close (items : List α) (all : ∀ item ∈ items, proper item) :
      Reads limit (fun result => result.length + 2 - 1 - items.length)
        (fun items => ∀ item ∈ items, proper item)
        (expect (.symbol .parenClose) >>= fun _ => pure items) :=
    (reads_expect (by simp)).bind fun _ _ => reads_pure (by omega) all
  refine (reads_expect (by simp)).bind fun _ _ => reads_peek fun found _ => ?_
  dsimp only
  split
  · have none : Reads limit List.length (fun items => ∀ item ∈ items, proper item) (pure []) :=
      reads_pure rfl fun item member => by contradiction
    exact (none.bind close).from
  · have list : Reads limit List.length (fun items => ∀ item ∈ items, proper item)
        (commaSeparated item) :=
      (reads_commaSeparated own).weaken fun items all _ =>
        ⟨all.2, Nat.le_of_eq (takenBy_one items).symm⟩
    exact (list.bind close).from

end Parentheses

/-! ## The two halves of a subroutine

The first lexemes of a subroutine choose its kind and its result. What stands behind them is read
the same way for all of them, so every logic of readers judges it once.
-/

section Subroutines

open Reader

/-- Reads what stands behind the kind and the result of a subroutine. -/
def subroutineAfter (kind : SubroutineKind) (result : JackType) : Reader Subroutine := do
  let name ← identifier
  let params ← parameters
  expect (.symbol .braceOpen)
  let locals ← «repeat» (· = .keyword .var) localVariables
  let body ← statements nestingLimit
  expect (.symbol .braceClose)
  return { kind, result, name, params, locals := locals.flatten, body }

/-- A subroutine is read as its kind, its result and what stands behind them. -/
theorem subroutine_eq :
    subroutine = (do
      let found ← peek
      advance
      let kind := (SubroutineKind.ofLexeme? found).getD .function
      if ← accept (.keyword .void) then subroutineAfter kind .void
      else subroutineAfter kind (← typeName)) :=
  rfl

end Subroutines

end JackToolchain.Jack
