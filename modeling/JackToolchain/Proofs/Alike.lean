import JackToolchain.Fault
import Mathlib.Data.List.Forall2

/-!
# Outcomes that are alike

Two source texts may differ only in where their parts stand. A stage that never asks for a place
then has outcomes that are alike: values that differ in places only, or the same fault in two
places. Alikeness passes through chains of steps and through lists, so it is shown for a stage by
following its definition.
-/
namespace JackToolchain

variable {α β γ δ : Type}

/-- Outcomes are alike if both are values, and the values are related, or both are the same fault,
wherever it is found. -/
inductive Alike (related : α → β → Prop) : Outcome α → Outcome β → Prop
  | ok {left : α} {right : β} (values : related left right) : Alike related (.ok left) (.ok right)
  | error {left right : Spanned Fault} (faults : left.node = right.node) :
    Alike related (.error left) (.error right)

namespace Alike

variable {related : α → β → Prop} {other : γ → δ → Prop}
variable {left : Outcome α} {right : Outcome β}

/-- What follows on outcomes that are alike is alike. -/
theorem bind {next : α → Outcome γ} {nextRight : β → Outcome δ} (first : Alike related left right)
    (each : ∀ own its, related own its → Alike other (next own) (nextRight its)) :
    Alike other (left >>= next) (right >>= nextRight) := by
  cases first with
  | ok values => exact each _ _ values
  | error faults => exact .error faults

/-- Outcomes whose values are related are alike in what the relation implies. -/
theorem mono {weaker : α → β → Prop} (same : Alike related left right)
    (implies : ∀ own its, related own its → weaker own its) : Alike weaker left right := by
  cases same with
  | ok values => exact .ok (implies _ _ values)
  | error faults => exact .error faults

/-- Lists whose elements are treated alike are treated alike. -/
theorem mapM {step : α → Outcome γ} {stepRight : β → Outcome δ} {items : List α}
    {others : List β}
    (each : List.Forall₂ (fun item its => Alike other (step item) (stepRight its)) items others) :
    Alike (List.Forall₂ other) (items.mapM step) (others.mapM stepRight) := by
  induction each with
  | nil => exact .ok .nil
  | cons first _ ih =>
    rw [List.mapM_cons, List.mapM_cons]
    exact first.bind fun _ _ own => ih.bind fun _ _ rest => .ok (.cons own rest)

/-- Outcomes with the same values are alike exactly if they are equal but for the places of their
faults. -/
theorem eq_iff {left right : Outcome α} :
    Alike Eq left right ↔ left.mapError Spanned.node = right.mapError Spanned.node := by
  constructor
  · rintro (⟨rfl⟩ | faults)
    · rfl
    · exact congrArg Except.error faults
  · intro same
    cases left with
    | ok value =>
      cases right with
      | ok value => exact .ok (Except.ok.inj same)
      | error fault => contradiction
    | error fault =>
      cases right with
      | ok value => contradiction
      | error fault => exact .error (Except.error.inj same)

end Alike

/-- Lists hold the same nodes exactly if they do so one by one. -/
theorem forall₂_node_iff {left right : List (Spanned α)} :
    List.Forall₂ (fun own its => own.node = its.node) left right ↔
      left.map (fun item => item.node) = right.map fun item => item.node := by
  rw [← List.forall₂_eq_eq_eq, List.forall₂_map_left_iff, List.forall₂_map_right_iff]

end JackToolchain
