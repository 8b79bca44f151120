import JackToolchain.Build
import JackToolchain.Proofs.Outcome

/-!
# Linking

A program is linked exactly if none of its units has a fault. What is linked are then the lines of
the units, in the order of the units.
-/
namespace JackToolchain

open Assembly (Line linesText)

section Collecting

variable {ε α : Type} {results : List (Except ε α)} {values : List α}

/-- A value is collected in front of those behind it. -/
theorem collect_ok_cons (value : α) :
    collect (.ok value :: results) = (collect results).map (value :: ·) := by
  unfold collect
  dsimp only [List.filterMap_cons]
  split <;> rfl

/-- An error is collected in front of those behind it. -/
theorem collect_error_cons (error : ε) :
    collect (.error error :: results) =
      .error (error :: match collect results with
        | .error errors => errors
        | .ok _ => []) := by
  unfold collect
  dsimp only [List.filterMap_cons]
  split
  · rename_i none
    simp only [List.isEmpty_cons, Bool.false_eq_true] at none
  · split
    · rename_i others
      split at others
      · contradiction
      · rw [Except.error.inj others]
    · rename_i others
      split at others
      · rename_i none
        rw [List.isEmpty_iff.mp none]
      · contradiction

/-- Results are collected exactly if all of them are there. -/
theorem collect_eq_ok : collect results = .ok values ↔ results = values.map .ok := by
  induction results generalizing values with
  | nil =>
    cases values with
    | nil => exact iff_of_true rfl rfl
    | cons value rest => exact iff_of_false (fun same => by cases same) (by simp)
  | cons result rest ih =>
    cases result with
    | error error =>
      rw [collect_error_cons]
      cases values <;> simp
    | ok value =>
      rw [collect_ok_cons]
      cases values with
      | nil =>
        refine iff_of_false (fun same => ?_) (by simp)
        cases others : collect rest <;> simp [others, Except.map] at same
      | cons first later =>
        cases others : collect rest with
        | error errors => simp [Except.map, ← ih, others]
        | ok own => simp [Except.map, ← ih, others]

/-- Errors may be replaced before or after they are collected. -/
theorem collect_mapError {ε' : Type} (change : ε → ε') (results : List (Except ε α)) :
    collect (results.map fun result => result.mapError change) =
      (collect results).mapError (List.map change) := by
  induction results with
  | nil => rfl
  | cons result rest ih =>
    cases result with
    | error error =>
      rw [collect_error_cons, List.map_cons]
      change collect (.error (change error) :: _) = _
      rw [collect_error_cons, ih]
      cases collect rest <;> rfl
    | ok value =>
      rw [collect_ok_cons, List.map_cons]
      change collect (.ok value :: _) = _
      rw [collect_ok_cons, ih]
      cases collect rest <;> rfl

end Collecting

/-- A unit reports a result exactly if it has it. -/
theorem SourceUnit.reporting_eq_ok {α : Type} {unit : SourceUnit} {outcome : Outcome α}
    {value : α} : unit.reporting outcome = .ok value ↔ outcome = .ok value := by
  cases outcome <;> simp [SourceUnit.reporting]

/-- A program is linked exactly if all its units have lines. -/
theorem link_eq_ok {options : Options} {units : List (Except Report (List Line))} {text : String} :
    link options units = .ok text ↔
      ∃ lines, units = lines.map .ok ∧ text = linesText (programLines options lines) ++ "\n" := by
  rw [link, bind_eq_ok]
  constructor
  · rintro ⟨lines, collected, made⟩
    exact ⟨lines, collect_eq_ok.mp collected, (Except.ok.inj made).symm⟩
  · rintro ⟨lines, units, rfl⟩
    exact ⟨lines, collect_eq_ok.mpr units, rfl⟩

/-- A program of units is linked exactly if each of them has lines. -/
theorem link_map_eq_ok {options : Options} {units : List SourceUnit} {text : String}
    {made : SourceUnit → Except Report (List Line)} :
    link options (units.map made) = .ok text ↔
      ∃ lines, List.Forall₂ (fun unit own => made unit = .ok own) units lines ∧
        text = linesText (programLines options lines) ++ "\n" := by
  rw [link_eq_ok]
  refine exists_congr fun lines => and_congr_left fun _ => ?_
  rw [← List.forall₂_eq_eq_eq, List.forall₂_map_left_iff, List.forall₂_map_right_iff]

end JackToolchain
