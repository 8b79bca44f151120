import JackToolchain.Proofs.Alike
import JackToolchain.Proofs.Assembly.Placement

/-!
# Assembly without places

What a text is assembled to depends on the instructions that are read from it and not on where in
the text they stand. Two texts with the same items are assembled to equal programs, words and
symbols, or are refused with the same fault.
-/
namespace JackToolchain.Assembly

open Machine (Word)

/-- Programs are read alike from texts with the same items. -/
theorem readProgram_alike {first second : String}
    (same : (Text.items first).map (fun item => item.node) =
      (Text.items second).map fun item => item.node) :
    Alike (fun left right => instructionsOf left = instructionsOf right) (readProgram first)
      (readProgram second) := by
  refine (Alike.mapM ((forall₂_node_iff.mpr same).imp fun item other node => ?_)).mono
    fun left right each => forall₂_node_iff.mp each
  rw [node]
  cases Instruction.read other.node with
  | ok instruction => exact .ok rfl
  | error fault => exact .error rfl

section Passes

variable {left right : List (Spanned Instruction)}

/-- The first pass does not depend on the places of the instructions. -/
theorem bindLabels_alike (table : SymbolTable) (count : Nat)
    (same : instructionsOf left = instructionsOf right) :
    Alike Eq (bindLabels table count left) (bindLabels table count right) := by
  induction left generalizing right table count with
  | nil =>
    obtain rfl := List.map_eq_nil_iff.mp same.symm
    exact .ok rfl
  | cons first rest ih =>
    obtain ⟨⟨instruction, _⟩, others, rfl, rfl, later⟩ := List.map_eq_cons_iff.mp same.symm
    obtain ⟨instruction, _⟩ := first
    cases instruction with
    | label name =>
      rw [bindLabels, bindLabels]
      split
      · exact .error rfl
      · exact ih _ _ later.symm
    | _ => exact ih _ _ later.symm

/-- The second pass does not depend on the places of the instructions. -/
theorem encodeAll_alike (table : SymbolTable) (words : Array Word)
    (same : instructionsOf left = instructionsOf right) :
    Alike Eq (encodeAll table words left) (encodeAll table words right) := by
  induction left generalizing right table words with
  | nil =>
    obtain rfl := List.map_eq_nil_iff.mp same.symm
    exact .ok rfl
  | cons first rest ih =>
    obtain ⟨⟨instruction, _⟩, others, rfl, rfl, later⟩ := List.map_eq_cons_iff.mp same.symm
    obtain ⟨instruction, _⟩ := first
    cases instruction with
    | compute dest comp jump =>
      rw [encodeAll, encodeAll]
      cases encodeCompute? dest comp jump with
      | some word => exact ih _ _ later.symm
      | none => exact .error rfl
    | _ =>
      rw [encodeAll, encodeAll]
      exact ih _ _ later.symm

/-- Instructions are assembled alike wherever they stand. -/
theorem assembleInstructions_alike (same : instructionsOf left = instructionsOf right) :
    Alike Eq (assembleInstructions left) (assembleInstructions right) := by
  refine (bindLabels_alike .initial 0 same).bind ?_
  rintro ⟨table, count⟩ _ rfl
  dsimp only
  split
  · exact .error rfl
  · exact encodeAll_alike table #[] same

end Passes

/-- Texts with the same items are assembled to equal programs or refused with the same fault. -/
theorem assemble_alike {first second : String}
    (same : (Text.items first).map (fun item => item.node) =
      (Text.items second).map fun item => item.node) :
    Alike Eq (assemble first) (assemble second) :=
  (readProgram_alike same).bind fun _ _ nodes => assembleInstructions_alike nodes

end JackToolchain.Assembly
