import JackToolchain.Proofs.Alike
import JackToolchain.Proofs.Jack.Taking

/-!
# Readers in step

Two readers agree if they make related results of the same lexemes, wherever the lexemes stand, or
stop with the same fault. Readers that do not look at a place agree with themselves. Agreement
passes through the combinators of readers, so it is shown for a reader by following its definition,
with the two runs side by side.
-/
namespace JackToolchain.Jack

open Reader

/-- Two readers make related results of the same lexemes and leave the same lexemes, or they stop
with the same fault. -/
def Agrees {α β : Type} (related : α → β → Prop) (reader : Reader α) (other : Reader β) : Prop :=
  ∀ cursor its : Cursor, cursor.lexemes = its.lexemes →
    Alike (fun own theirs => related own.1 theirs.1 ∧ own.2.lexemes = theirs.2.lexemes)
      (reader.run cursor) (other.run its)

section Rules

variable {α β γ δ : Type} {related : α → β → Prop} {relatedNext : γ → δ → Prop}
variable {reader : Reader α} {other : Reader β}

/-- Cursors with the same lexemes have the same next one. -/
theorem node_next_congr {cursor its : Cursor} (same : cursor.lexemes = its.lexemes) :
    cursor.next.node = its.next.node := by
  rw [cursor.node_next, its.node_next, same]

/-- Cursors with the same lexemes have the same ones behind the next one. -/
theorem lexemes_advance_congr {cursor its : Cursor} (same : cursor.lexemes = its.lexemes) :
    cursor.advance.lexemes = its.advance.lexemes := by
  have tail (cursor : Cursor) : cursor.advance.lexemes = cursor.lexemes.tail := List.map_tail
  rw [tail, tail, same]

/-- Readers that take nothing agree in their results. -/
theorem agrees_pure {value : α} {its : β} (values : related value its) :
    Agrees related (pure value) (pure its) :=
  fun _ _ same => .ok ⟨values, same⟩

/-- Readers that agree go on in agreement. -/
theorem Agrees.bind {next : α → Reader γ} {nextOther : β → Reader δ}
    (first : Agrees related reader other)
    (each : ∀ value its, related value its → Agrees relatedNext (next value) (nextOther its)) :
    Agrees relatedNext (reader >>= next) (other >>= nextOther) := by
  intro cursor its same
  rw [StateT.run_bind, StateT.run_bind]
  exact (first cursor its same).bind fun own theirs ⟨values, left⟩ =>
    each own.1 theirs.1 values own.2 theirs.2 left

/-- Readers agree in what their relation implies. -/
theorem Agrees.mono {weaker : α → β → Prop} (agrees : Agrees related reader other)
    (implies : ∀ value its, related value its → weaker value its) :
    Agrees weaker reader other :=
  fun cursor its same => (agrees cursor its same).mono
    fun own theirs both => ⟨implies own.1 theirs.1 both.1, both.2⟩

/-- Readers that choose by the next lexeme choose alike. -/
theorem agrees_peek {choose : Lexeme → Reader α} {chooseOther : Lexeme → Reader β}
    (each : ∀ found, Agrees related (choose found) (chooseOther found)) :
    Agrees related (peek >>= choose) (peek >>= chooseOther) := by
  intro cursor its same
  have own := each cursor.next.node cursor its same
  rw [node_next_congr same] at own
  change Alike _ ((choose cursor.next.node).run cursor) _
  rw [node_next_congr same]
  exact own

/-- A reader that asks for a place has to do without it. -/
theorem agrees_place {choose : Span → Reader α} {chooseOther : Span → Reader β}
    (each : ∀ span theirs, Agrees related (choose span) (chooseOther theirs)) :
    Agrees related (place >>= choose) (place >>= chooseOther) :=
  fun cursor its same => each cursor.next.span its.next.span cursor its same

/-- Readers take the next lexeme in step. -/
theorem agrees_advance : Agrees (fun _ _ => True) advance advance :=
  fun _ _ same => .ok ⟨trivial, lexemes_advance_congr same⟩

/-- Readers refuse the next lexeme for the same reason. -/
theorem agrees_refuse (reason : Malformed) : Agrees related (refuse reason) (refuse reason) :=
  fun _ _ _ => .error rfl

/-- Readers find the same lexeme or do not find it. -/
theorem agrees_accept (lexeme : Lexeme) : Agrees Eq (accept lexeme) (accept lexeme) := by
  refine agrees_peek fun found => ?_
  split
  · exact agrees_advance.bind fun _ _ _ => agrees_pure rfl
  · exact agrees_pure rfl

/-- Readers want the same lexeme. -/
theorem agrees_expect (lexeme : Lexeme) : Agrees Eq (expect lexeme) (expect lexeme) := by
  refine (agrees_accept lexeme).bind ?_
  rintro taken _ rfl
  split
  · exact agrees_pure rfl
  · exact agrees_peek fun found => agrees_refuse _

/-- Readers find the same identifier. -/
theorem agrees_identifier :
    Agrees (fun name other : Name => name.node = other.node) identifier identifier := by
  refine agrees_peek fun found => ?_
  split
  · exact agrees_place fun _ _ => agrees_advance.bind fun _ _ _ => agrees_pure rfl
  · exact agrees_refuse _

/-- Readers of what needs a span agree if what they read does so whatever the span is. -/
theorem agrees_spanned {item : Reader (Span → α)} {itemOther : Reader (Span → β)}
    (own : Agrees (fun build theirs => ∀ span other, related (build span) (theirs other)) item
      itemOther) : Agrees related (spanned item) (spanned itemOther) := by
  intro cursor its same
  have built := own cursor its same
  exact built.bind fun own theirs both => .ok ⟨both.1 _ _, both.2⟩

/-! ## Repetition -/

/-- Readers repeat what they agree in equally often. -/
theorem agrees_repeatInto (more : Lexeme → Bool) (own : Agrees related reader other) (limit : Nat)
    {done : List α} {theirs : List β} (ready : List.Forall₂ related done theirs) :
    Agrees (List.Forall₂ related) (repeatInto more reader limit done)
      (repeatInto more other limit theirs) := by
  induction limit generalizing done theirs with
  | zero => exact agrees_pure (List.rel_reverse ready)
  | succ limit ih =>
    refine agrees_peek fun found => ?_
    split
    · exact own.bind fun value its values => ih (.cons values ready)
    · exact agrees_pure (List.rel_reverse ready)

/-- Readers repeat what they agree in. -/
theorem agrees_repeat (more : Lexeme → Bool) (own : Agrees related reader other) :
    Agrees (List.Forall₂ related) («repeat» more reader) («repeat» more other) := by
  intro cursor its same
  have count : cursor.rest.length = its.rest.length := by
    have lengths := congrArg List.length same
    rwa [Cursor.lexemes, Cursor.lexemes, List.length_map, List.length_map] at lengths
  have repeated := agrees_repeatInto more own cursor.rest.length .nil cursor its same
  change Alike _ ((repeatInto more reader cursor.rest.length []).run cursor)
    ((repeatInto more other its.rest.length []).run its)
  rw [← count]
  exact repeated

/-- Readers read the same number of items between commas. -/
theorem agrees_commaSeparated (own : Agrees related reader other) :
    Agrees (List.Forall₂ related) (commaSeparated reader) (commaSeparated other) :=
  own.bind fun _ _ first =>
    (agrees_repeat _ (agrees_advance.bind fun _ _ _ => own)).bind fun _ _ rest =>
      agrees_pure (.cons first rest)

end Rules

end JackToolchain.Jack
