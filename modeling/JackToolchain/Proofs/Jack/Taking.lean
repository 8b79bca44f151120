import JackToolchain.Jack.Grammar
import JackToolchain.Proofs.Outcome

/-!
# What readers take

`Takes` says which lexemes a reader takes from the front of those that are left, in terms of its
result. Two readers one after the other take what the first one takes followed by what the second
one takes, so the meaning of the second is stated of the lexemes of both. No reader takes the end
of the text.
-/
namespace JackToolchain.Jack

/-- The lexemes that are left, without their places. -/
def Cursor.lexemes (cursor : Cursor) : List Lexeme := cursor.rest.map Spanned.node

/-- A reader takes lexemes that mean its result. -/
def Takes {α : Type} (meant : List Lexeme → α → Prop) (reader : Reader α) : Prop :=
  ∀ cursor value after, reader.run cursor = .ok (value, after) →
    ∃ taken, cursor.lexemes = taken ++ after.lexemes ∧ .eof ∉ taken ∧ meant taken value

/-- A reader takes lexemes that mean its result if the next one is the given one. -/
def TakesFrom {α : Type} (found : Lexeme) (meant : List Lexeme → α → Prop) (reader : Reader α) :
    Prop :=
  ∀ cursor value after, cursor.next.node = found → reader.run cursor = .ok (value, after) →
    ∃ taken, cursor.lexemes = taken ++ after.lexemes ∧ .eof ∉ taken ∧ meant taken value

/-- The next lexeme is the first one that is left, or else the end of the text. -/
theorem Cursor.node_next (cursor : Cursor) : cursor.next.node = cursor.lexemes.headD .eof := by
  obtain ⟨rest, last⟩ := cursor
  cases rest <;> rfl

/-- A next lexeme that is not the end of the text is the first one that is left. -/
theorem Cursor.lexemes_eq_cons {cursor : Cursor} {found : Lexeme} (same : cursor.next.node = found)
    (some : found ≠ .eof) : cursor.lexemes = found :: cursor.advance.lexemes := by
  obtain ⟨rest, last⟩ := cursor
  cases rest with
  | nil => exact absurd same.symm some
  | cons lexeme rest =>
    subst same
    rfl

/-- Taking a lexeme that may come next depends on whether it does. -/
theorem run_accept (lexeme : Lexeme) (cursor : Cursor) :
    (Reader.accept lexeme).run cursor =
      .ok (if cursor.next.node = lexeme then (true, cursor.advance) else (false, cursor)) := by
  change ((if cursor.next.node = lexeme then Reader.advance >>= fun _ => pure true else pure false :
    Reader Bool)).run cursor = _
  split <;> rfl

/-- A whole class is one with the end of the text behind it. -/
theorem run_wholeClass {cursor after : Cursor} {cls : Class} :
    wholeClass.run cursor = .ok (cls, after) ↔
      classDeclaration.run cursor = .ok (cls, after) ∧ after.next.node = .eof := by
  have ends (result : Class) (middle : Cursor) :
      ((do
        let next ← Reader.peek
        unless next = .eof do Reader.refuse (.textAfterClass result.name.node next)
        return result : Reader Class)).run middle = .ok (cls, after) ↔
      result = cls ∧ middle = after ∧ middle.next.node = .eof := by
    change ((do
      unless middle.next.node = .eof do
        Reader.refuse (.textAfterClass result.name.node middle.next.node)
      return result : Reader Class)).run middle = _ ↔ _
    by_cases last : middle.next.node = .eof
    · rw [if_pos last]
      constructor
      · intro same
        obtain ⟨rfl, rfl⟩ := Prod.mk.inj (Except.ok.inj same)
        exact ⟨rfl, rfl, last⟩
      · rintro ⟨rfl, rfl, -⟩
        rfl
    · rw [if_neg last]
      refine ⟨fun none => ?_, fun same => absurd same.2.2 last⟩
      cases none
  rw [wholeClass, StateT.run_bind, bind_eq_ok]
  constructor
  · rintro ⟨⟨result, middle⟩, made, rest⟩
    obtain ⟨rfl, rfl, last⟩ := (ends result middle).mp rest
    exact ⟨made, last⟩
  · rintro ⟨made, last⟩
    exact ⟨(cls, after), made, (ends cls after).mpr ⟨rfl, rfl, last⟩⟩

section Rules

variable {α β : Type} {meant meant' : List Lexeme → α → Prop} {meant₂ : List Lexeme → β → Prop}
variable {reader : Reader α} {next : α → Reader β} {found : Lexeme}

/-- A reader that takes nothing. -/
theorem takes_pure {value : α} (own : meant [] value) : Takes meant (pure value) := by
  intro cursor result after run
  obtain ⟨rfl, rfl⟩ := Prod.mk.inj (Except.ok.inj run)
  exact ⟨[], rfl, List.not_mem_nil, own⟩

/-- Two readers one after the other. -/
theorem Takes.bind (first : Takes meant reader)
    (second : ∀ front value, meant front value →
      Takes (fun back result => meant₂ (front ++ back) result) (next value)) :
    Takes meant₂ (reader >>= next) := by
  intro cursor result after run
  obtain ⟨⟨value, middle⟩, made, rest⟩ := bind_eq_ok.mp run
  obtain ⟨front, begins, frontOpen, own⟩ := first cursor value middle made
  obtain ⟨back, goesOn, backOpen, last⟩ := second front value own middle result after rest
  refine ⟨front ++ back, ?_, ?_, last⟩
  · rw [begins, goesOn, List.append_assoc]
  · rw [List.mem_append]
    exact fun inside => inside.elim frontOpen backOpen

/-- Lexemes mean whatever follows from what they mean. -/
theorem Takes.weaken (first : Takes meant reader)
    (less : ∀ taken value, meant taken value → meant' taken value) : Takes meant' reader := by
  intro cursor value after run
  obtain ⟨taken, begins, open_, own⟩ := first cursor value after run
  exact ⟨taken, begins, open_, less taken value own⟩

/-- What a reader does, it does whatever the next lexeme is. -/
theorem Takes.from (takes : Takes meant reader) : TakesFrom found meant reader :=
  fun cursor value after _ run => takes cursor value after run

/-- A reader that looks at the next lexeme. -/
theorem takes_peek {choose : Lexeme → Reader α}
    (each : ∀ found, TakesFrom found meant (choose found)) :
    Takes meant (Reader.peek >>= choose) :=
  fun cursor value after run => each cursor.next.node cursor value after rfl run

/-- A reader that looks at the next lexeme when that is known. -/
theorem takesFrom_peek {choose : Lexeme → Reader α}
    (own : TakesFrom found meant (choose found)) :
    TakesFrom found meant (Reader.peek >>= choose) := by
  intro cursor value after same run
  subst same
  exact own cursor value after rfl run

/-- A reader that takes the next lexeme. -/
theorem takesFrom_advance (some : found ≠ .eof)
    (others : Takes (fun taken result => meant (found :: taken) result) reader) :
    TakesFrom found meant (Reader.advance >>= fun _ => reader) := by
  intro cursor value after same run
  obtain ⟨taken, goesOn, open_, own⟩ := others cursor.advance value after run
  refine ⟨found :: taken, ?_, ?_, own⟩
  · rw [cursor.lexemes_eq_cons same some, goesOn, List.cons_append]
  · rw [List.mem_cons]
    exact fun inside => inside.elim some.symm open_

/-- A reader that refuses the next lexeme reads nothing. -/
theorem takes_refuse {reason : Malformed} : Takes meant (Reader.refuse reason) := by
  intro cursor value after run
  cases run

/-- Taking a lexeme that may come next. -/
theorem takes_accept {lexeme : Lexeme} (some : lexeme ≠ .eof) :
    Takes (fun taken there => taken = if there then [lexeme] else []) (Reader.accept lexeme) := by
  refine takes_peek fun found => ?_
  split
  · rename_i same
    subst same
    exact takesFrom_advance some (takes_pure rfl)
  · exact Takes.from (takes_pure rfl)

/-- Taking a lexeme that must come next. -/
theorem takes_expect {lexeme : Lexeme} (some : lexeme ≠ .eof) :
    Takes (fun taken _ => taken = [lexeme]) (Reader.expect lexeme) := by
  refine (takes_accept some).bind fun front there same => ?_
  subst same
  cases there with
  | true => exact takes_pure rfl
  | false => exact takes_peek fun found => takes_refuse.from

/-- Taking a name, which must come next. -/
theorem takes_identifier :
    Takes (fun taken name => taken = [.identifier name.node]) Reader.identifier := by
  refine takes_peek fun found => ?_
  split
  · intro cursor name after same run
    obtain ⟨rfl, rfl⟩ := Prod.mk.inj (Except.ok.inj run)
    exact ⟨[_], cursor.lexemes_eq_cons same (by simp), by simp, rfl⟩
  · exact takes_refuse.from

/-- A reader with the span of what it takes. -/
theorem takes_spanned {item : Reader (Span → α)}
    (own : Takes (fun taken build => ∀ span, meant taken (build span)) item) :
    Takes meant (Reader.spanned item) := by
  intro cursor value after run
  obtain ⟨⟨build, middle⟩, made, rest⟩ := bind_eq_ok.mp run
  obtain ⟨rfl, rfl⟩ := Prod.mk.inj (Except.ok.inj rest)
  obtain ⟨taken, begins, open_, each⟩ := own cursor build middle made
  exact ⟨taken, begins, open_, each _⟩

/-! ## Repetition -/

/-- Lexemes in parts, of which each means a value. -/
def InParts (meant : List Lexeme → α → Prop) (taken : List Lexeme) (values : List α) : Prop :=
  ∃ parts : List (List Lexeme), taken = parts.flatten ∧ List.Forall₂ meant parts values

/-- No lexemes mean no values. -/
theorem InParts.nil : InParts meant [] [] := ⟨[], rfl, .nil⟩

/-- A first part means a first value. -/
theorem InParts.cons {front back : List Lexeme} {value : α} {values : List α}
    (first : meant front value) (rest : InParts meant back values) :
    InParts meant (front ++ back) (value :: values) := by
  obtain ⟨parts, rfl, each⟩ := rest
  exact ⟨front :: parts, rfl, .cons first each⟩

/-- Repeating a reader takes the parts of the repetitions. -/
theorem takes_repeatInto {more : Lexeme → Bool}
    (own : ∀ found, more found = true → TakesFrom found meant reader) (times : Nat)
    (done : List α) :
    Takes (fun taken values => ∃ others, values = done.reverse ++ others ∧ InParts meant taken others)
      (Reader.repeatInto more reader times done) := by
  have finished (done : List α) :
      Takes (fun taken values => ∃ others, values = done.reverse ++ others ∧
        InParts meant taken others) (pure done.reverse) :=
    takes_pure ⟨[], (List.append_nil _).symm, .nil⟩
  induction times generalizing done with
  | zero => exact finished done
  | succ times ih =>
    refine takes_peek fun found => ?_
    split
    · rename_i goesOn
      intro cursor values after same run
      obtain ⟨⟨value, middle⟩, made, rest⟩ := bind_eq_ok.mp run
      obtain ⟨front, begins, frontOpen, first⟩ := own found goesOn cursor value middle same made
      obtain ⟨back, follows, backOpen, others, rfl, parts⟩ := ih (value :: done) middle values after
        rest
      refine ⟨front ++ back, ?_, ?_, value :: others, ?_, .cons first parts⟩
      · rw [begins, follows, List.append_assoc]
      · rw [List.mem_append]
        exact fun inside => inside.elim frontOpen backOpen
      · rw [List.reverse_cons, List.append_assoc, List.singleton_append]
    · exact (finished done).from

/-- Repeating a reader. -/
theorem takes_repeat {more : Lexeme → Bool}
    (own : ∀ found, more found = true → TakesFrom found meant reader) :
    Takes (InParts meant) (Reader.repeat more reader) := by
  intro cursor values after run
  obtain ⟨taken, begins, open_, others, rfl, parts⟩ :=
    takes_repeatInto own cursor.rest.length [] cursor values after run
  exact ⟨taken, begins, open_, parts⟩

/-- Reading items with commas between them. -/
theorem takes_commaSeparated (own : Takes meant reader) :
    Takes (fun taken values => values ≠ [] ∧ ∃ parts, List.Forall₂ meant parts values ∧
      taken = [Lexeme.symbol .comma].intercalate parts) (Reader.commaSeparated reader) := by
  refine own.bind fun front first good => ?_
  have item (found : Lexeme) (comma : decide (found = .symbol .comma) = true) :
      TakesFrom found
        (fun taken value => ∃ part, taken = .symbol .comma :: part ∧ meant part value)
        (Reader.advance >>= fun _ => reader) := by
    obtain rfl := of_decide_eq_true comma
    exact takesFrom_advance (by simp) (own.weaken fun part value good => ⟨part, rfl, good⟩)
  refine (takes_repeat item).bind fun back others parted => takes_pure ?_
  refine ⟨List.cons_ne_nil _ _, ?_⟩
  obtain ⟨marked, rfl, each⟩ := parted
  rw [List.append_nil]
  clear item
  induction each generalizing front first with
  | nil => exact ⟨[front], .cons good .nil, by simp⟩
  | @cons part value marked others head _ ih =>
    obtain ⟨second, rfl, goodSecond⟩ := head
    obtain ⟨parts, each, same⟩ := ih second value goodSecond
    refine ⟨front :: parts, .cons good each, ?_⟩
    cases each with
    | cons _ _ =>
      rw [List.intercalate_cons_cons, ← same]
      simp

end Rules

end JackToolchain.Jack
