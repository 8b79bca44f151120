import JackToolchain.Proofs.Assembling
import JackToolchain.Proofs.Assembly.AddressWords
import JackToolchain.Proofs.Vm.Translation

/-!
# Private cells

The static variables of a unit are cells that no other unit uses: their symbols hold the name of
the unit. But the name of a function may end in a dot and digits, and then it can be the symbol of a
static variable. The assembler takes the two for one, and the variable is the place of the function
in the program. All other static variables have cells of their own.
-/
namespace JackToolchain

open Assembly (Instruction Written codeOf instructionsOf isSymbol labelsOf variablesOf worded)
open Vm

/-- Whether a unit has a function with this name. -/
def IsFunction (units : List SourceUnit) (name : String) : Prop :=
  ∃ unit ∈ units, name ∈ entries unit.commands

/-- Whether a symbol of assembled instructions stands for a variable with this cell. -/
structure HasCell (code : List Instruction) (program : Assembly.Program) (name : String)
    (cell : Machine.Word) : Prop where
  /-- The symbol is one of the variables. -/
  allocated : name ∈ variablesOf code
  /-- The symbol is no label. -/
  noLabel : name ∉ labelsOf code
  /-- The symbol table has the cell. -/
  known : program.symbols.address? name = some cell
  /-- The cell is behind those of the platform. -/
  low : 16 ≤ cell.toNat
  /-- The cell is in the memory. -/
  high : cell.toNat < 16400
  /-- Each word that loads the symbol is the cell. -/
  loads : ∀ place : Nat, (worded code)[place]? = some (.symbol name) → program.words[place]? = some cell

section Programs

variable {options : Options} {units : List SourceUnit} {text : String}
variable {program : Assembly.Program} {written : List (List Assembly.Line)}
variable {nodes : List (Spanned Instruction)}

/-- A symbol of a static variable is a label of a program exactly if a function has it for its
name. -/
theorem static_mem_labelsOf_iff
    (made : List.Forall₂ (HasLines options)
      (units.map fun unit => (unit.name, unit.commands)) written) {unit : String}
    (plain : '$' ∉ unit.toList) (index : Nat) :
    staticSymbol unit index ∈ labelsOf (codeOf (programLines options written)) ↔
      IsFunction units (staticSymbol unit index) := by
  have dot := dot_staticSymbol unit index
  have noMark := @noMark_staticSymbol unit index plain
  have noCall : staticSymbol unit index ≠ bootstrapLandmark.symbol := fun same =>
    noMark (by rw [same]; decide)
  have noHalt : staticSymbol unit index ≠ haltLabel := fun same => by
    rw [same] at dot
    contradiction
  have functions : staticSymbol unit index ∈ (units.map fun unit => (unit.name, unit.commands)).flatMap
      (fun unit => entries unit.2) ↔ IsFunction units (staticSymbol unit index) := by
    rw [List.flatMap_map, List.mem_flatMap]
    rfl
  rw [labelsOf_programLines made, landmarks_programSites, ← functions,
    ← mem_symbols_iff_of_noMark noMark]
  cases options.bootstrap with
  | false =>
    rw [if_neg Bool.false_ne_true, if_neg Bool.false_ne_true, List.nil_append, List.mem_append,
      List.mem_singleton, or_iff_left noHalt]
  | true =>
    rw [if_pos rfl, if_pos rfl, List.append_nil, List.map_append, List.mem_append,
      List.map_singleton, List.mem_singleton, or_iff_right noCall]

/-- A static variable that a program uses has a cell if no function has its symbol for a name. -/
theorem exists_hasCell
    (made : List.Forall₂ (HasLines options)
      (units.map fun unit => (unit.name, unit.commands)) written)
    (readable : ∀ line ∈ programLines options written, line.Readable)
    (reread : List.Forall₂ (fun written read => written.reread? = some read)
      (codeOf (programLines options written)) (instructionsOf nodes))
    (labels : labelsOf (instructionsOf nodes) = labelsOf (codeOf (programLines options written)))
    (assembled : Assembly.assembleInstructions nodes = .ok program)
    {unit : SourceUnit} (member : unit ∈ units) (symbol : isSymbol unit.name.toList = true)
    (plain : '$' ∉ unit.name.toList) {index : Nat}
    (has : HasStatic (unit.name, unit.commands) index)
    (free : ¬ IsFunction units (staticSymbol unit.name index)) :
    ∃ k < 16384, (variablesOf (instructionsOf nodes))[k]? = some (staticSymbol unit.name index) ∧
      HasCell (instructionsOf nodes) program (staticSymbol unit.name index)
        (Assembly.firstVariable + UInt16.ofNat k) := by
  have code := Assembly.readable_of_mem_codeOf readable
  have sparse : Sparse (instructionsOf nodes) := by
    obtain ⟨words, symbols⟩ := Assembly.counts_reread code reread
    have own := sparse_programLines made
    unfold Sparse at own ⊢
    omega
  have loaded : staticSymbol unit.name index ∈ Assembly.symbolsOf (instructionsOf nodes) := by
    obtain ⟨command, inside, uses⟩ := has
    have own := mem_symbolsOf_programLines made (List.mem_map_of_mem member) inside uses
    exact Assembly.mem_symbolsOf_reread (.of_isSymbol (isSymbol_staticSymbol symbol index)) own
      reread
  have fresh : staticSymbol unit.name index ∉ Assembly.predefined.map Prod.fst := fun platform =>
    (bare_of_predefined platform).1 (dot_staticSymbol unit.name index)
  have noLabel : staticSymbol unit.name index ∉ labelsOf (instructionsOf nodes) := by
    rw [labels, static_mem_labelsOf_iff made plain index]
    exact free
  obtain ⟨k, few, there, address⟩ := exists_cell_of_loaded assembled sparse loaded fresh noLabel
  have cell := toNat_cell few
  refine ⟨k, few, there, List.mem_of_getElem? there, noLabel, address, by omega, by omega, ?_⟩
  intro place loads
  obtain ⟨word, found, own⟩ := Assembly.getElem?_words assembled loads
  rw [Instruction.word?, address] at own
  rw [found, own]

/-- Static storage is private, up to the names of functions. In an assembled program whose units
have different names, a static variable that a unit uses is a label exactly if a function of some
unit has the symbol of the variable for its name. All others have cells of the memory, and each of
them has one that no other static variable has. -/
theorem private_cells_of_translate (distinct : (units.map fun unit => unit.name).Nodup)
    (symbols : ∀ unit ∈ units, isSymbol unit.name.toList = true ∧ '$' ∉ unit.name.toList)
    (whole : ∀ name ∈ options.layout.names, '\n' ∉ name.toList)
    (translated : translate options units = .ok text)
    (assembled : Assembly.assemble text = .ok program) :
    ∃ nodes, Assembly.readProgram text = .ok nodes ∧
      (∀ unit ∈ units, ∀ index, HasStatic (unit.name, unit.commands) index →
        (staticSymbol unit.name index ∈ labelsOf (instructionsOf nodes) ↔
          IsFunction units (staticSymbol unit.name index)) ∧
        (¬ IsFunction units (staticSymbol unit.name index) →
          ∃ cell, HasCell (instructionsOf nodes) program (staticSymbol unit.name index) cell)) ∧
      ∀ unit ∈ units, ∀ other ∈ units, ∀ index another,
        HasStatic (unit.name, unit.commands) index → HasStatic (other.name, other.commands) another →
          ¬ IsFunction units (staticSymbol unit.name index) →
            ¬ IsFunction units (staticSymbol other.name another) →
              program.symbols.address? (staticSymbol unit.name index) =
                  program.symbols.address? (staticSymbol other.name another) →
                unit = other ∧ index = another := by
  obtain ⟨written, unitsMade, rfl⟩ := link_map_eq_ok.mp translated
  have made := forall₂_hasLines unitsMade
  have named : ∀ unit ∈ units.map fun unit => (unit.name, unit.commands),
      isSymbol unit.1.toList = true :=
    List.forall_mem_map.mpr fun unit member => (symbols unit member).1
  have readable := readable_programLines made whole fun unit member => by
    intro lineEnd
    exact absurd (Assembly.visible_of_isSymbol (named unit member) _ lineEnd).2 (by decide)
  obtain ⟨nodes, read, instructions⟩ := bind_eq_ok.mp assembled
  have reread := Assembly.reread_of_readProgram (programLines_ne_nil options written) readable read
  have labels := Assembly.labelsOf_reread (Assembly.readable_of_mem_codeOf readable)
    (fun name label => Written.of_isSymbol (isSymbol_of_mem_labelsOf made named label)) reread
  have cell {unit : SourceUnit} {index : Nat} (member : unit ∈ units)
      (has : HasStatic (unit.name, unit.commands) index)
      (free : ¬ IsFunction units (staticSymbol unit.name index)) :=
    exists_hasCell made readable reread labels instructions member (symbols unit member).1
      (symbols unit member).2 has free
  refine ⟨nodes, read, fun unit member index has => ⟨?_, fun free => ?_⟩, ?_⟩
  · rw [labels]
    exact static_mem_labelsOf_iff made (symbols unit member).2 index
  · obtain ⟨k, -, -, own⟩ := cell member has free
    exact ⟨_, own⟩
  · intro unit member other otherMember index another has otherHas free otherFree same
    obtain ⟨i, few, there, own⟩ := cell member has free
    obtain ⟨j, otherFew, otherThere, otherOwn⟩ := cell otherMember otherHas otherFree
    rw [own.known, otherOwn.known] at same
    have numbers := congrArg UInt16.toNat (Option.some.inj same)
    rw [toNat_cell few, toNat_cell otherFew] at numbers
    obtain rfl : i = j := by omega
    obtain ⟨names, rfl⟩ := staticSymbol_inj (Option.some.inj (there.symm.trans otherThere))
    exact ⟨List.inj_on_of_nodup_map distinct member otherMember names, rfl⟩

end Programs

/-! ## Two units -/

/-- The first one of two units, whose functions have the symbols of static variables for names. -/
def sharedUnit : SourceUnit where
  name := "A"
  filename := "A.vm"
  source := "function A.0 0\nfunction B.0 0\npop static 0\npop static 1\n"

/-- The second one. -/
def sharingUnit : SourceUnit where
  name := "B"
  filename := "B.vm"
  source := "pop static 0\npop static 1\n"

/-- The text of their program. -/
def sharingText : String :=
  (translate plainOptions [sharedUnit, sharingUnit]).toOption.getD ""

/-- The instructions of their program. -/
def sharingCode : List Instruction :=
  [Instruction.label "A.0", .label "B.0"] ++
    ["A.0", "A.1", "B.0", "B.1"].flatMap
      (fun name => popD ++ [Instruction.symbol name, .store "M" "D"]) ++
    [Instruction.label "END", .symbol "END", .jump "0" "JMP"]

/-- The two units are translated. -/
private theorem sharing_translated :
    translate plainOptions [sharedUnit, sharingUnit] = .ok sharingText :=
  eq_ok_getD "" (by decide)

/-- The commands of the two units. -/
private theorem commands_sharing :
    sharedUnit.commands =
        [.function "A.0" 0, .function "B.0" 0, .pop .static 0, .pop .static 1] ∧
      sharingUnit.commands = [.pop .static 0, .pop .static 1] := by
  decide

/-- Their program is read and assembled. -/
private theorem sharing_assembled :
    ∃ nodes program, Assembly.readProgram sharingText = .ok nodes ∧
      Assembly.assembleInstructions nodes = .ok program ∧
      Assembly.assemble sharingText = .ok program ∧
      instructionsOf nodes = sharingCode := by
  have evaluated : (Assembly.readProgram sharingText).toOption.map instructionsOf =
      some sharingCode := by
    decide +kernel
  obtain ⟨nodes, found, instructions⟩ := Option.map_eq_some_iff.mp evaluated
  have read := toOption_eq_some.mp found
  obtain ⟨program, assembled, -, made⟩ := Assembly.assemble_isOk read instructions
    (by decide) (by decide) (by decide) (by decide)
  exact ⟨nodes, program, read, made, assembled, instructions⟩

/-- The second static variables of the two units have different cells. -/
theorem sharing_private_cells :
    ∃ program left right, translate plainOptions [sharedUnit, sharingUnit] = .ok sharingText ∧
      Assembly.assemble sharingText = .ok program ∧ program.symbols.address? "A.1" = some left ∧
      program.symbols.address? "B.1" = some right ∧ left ≠ right := by
  obtain ⟨-, program, -, -, assembled, -⟩ := sharing_assembled
  obtain ⟨commands, others⟩ := commands_sharing
  obtain ⟨nodes, -, cells, apart⟩ := private_cells_of_translate (by decide) (by decide) (by decide)
    sharing_translated assembled
  have first : sharedUnit ∈ [sharedUnit, sharingUnit] := List.mem_cons_self
  have second : sharingUnit ∈ [sharedUnit, sharingUnit] := List.mem_cons_of_mem _ List.mem_cons_self
  have firstUses : HasStatic (sharedUnit.name, sharedUnit.commands) 1 :=
    ⟨.pop .static 1, by rw [commands]; decide, .inr rfl⟩
  have secondUses : HasStatic (sharingUnit.name, sharingUnit.commands) 1 :=
    ⟨.pop .static 1, by rw [others]; decide, .inr rfl⟩
  have functions (unit : SourceUnit) (member : unit ∈ [sharedUnit, sharingUnit]) :
      entries unit.commands ⊆ ["A.0", "B.0"] := by
    simp only [List.mem_cons, List.not_mem_nil, or_false] at member
    rcases member with rfl | rfl
    · rw [commands]
      exact List.Subset.refl _
    · rw [others]
      exact List.nil_subset _
  have leftFree : ¬ IsFunction [sharedUnit, sharingUnit] (staticSymbol sharedUnit.name 1) :=
    fun ⟨unit, member, entered⟩ => absurd (functions unit member entered) (by decide)
  have rightFree : ¬ IsFunction [sharedUnit, sharingUnit] (staticSymbol sharingUnit.name 1) :=
    fun ⟨unit, member, entered⟩ => absurd (functions unit member entered) (by decide)
  obtain ⟨left, leftOwn⟩ := (cells sharedUnit first 1 firstUses).2 leftFree
  obtain ⟨right, rightOwn⟩ := (cells sharingUnit second 1 secondUses).2 rightFree
  refine ⟨program, left, right, sharing_translated, assembled, leftOwn.known, rightOwn.known, ?_⟩
  rintro rfl
  have same := apart sharedUnit first sharingUnit second 1 1 firstUses secondUses leftFree rightFree
    (leftOwn.known.trans rightOwn.known.symm)
  exact absurd (congrArg SourceUnit.name same.1) (by decide)

/-- The first static variables of the two units are one place of the program. -/
theorem sharing_not_private :
    ([sharedUnit, sharingUnit].map fun unit => unit.name).Nodup ∧
      (∀ unit ∈ [sharedUnit, sharingUnit],
        isSymbol unit.name.toList = true ∧ '$' ∉ unit.name.toList) ∧
      HasStatic (sharedUnit.name, sharedUnit.commands) 0 ∧
      HasStatic (sharingUnit.name, sharingUnit.commands) 0 ∧
      translate plainOptions [sharedUnit, sharingUnit] = .ok sharingText ∧
      ∃ nodes program, Assembly.readProgram sharingText = .ok nodes ∧
        Assembly.assemble sharingText = .ok program ∧
        "A.0" ∈ labelsOf (instructionsOf nodes) ∧ "B.0" ∈ labelsOf (instructionsOf nodes) ∧
        program.symbols.address? "A.0" = some 0 ∧ program.symbols.address? "B.0" = some 0 := by
  obtain ⟨nodes, program, read, made, assembled, instructions⟩ := sharing_assembled
  obtain ⟨commands, others⟩ := commands_sharing
  have placed := Assembly.labelsAt_of_assembleInstructions made
  rw [instructions] at placed
  have first : program.symbols.address? "A.0" = some 0 := placed.1
  have second : program.symbols.address? "B.0" = some 0 := placed.2.1
  refine ⟨by decide, by decide, ⟨.pop .static 0, by rw [commands]; decide, .inr rfl⟩,
    ⟨.pop .static 0, by rw [others]; decide, .inr rfl⟩, sharing_translated, nodes, program, read,
    assembled, ?_, ?_, first, second⟩
  · rw [instructions]
    exact List.mem_cons_self
  · rw [instructions]
    exact List.mem_cons_of_mem _ List.mem_cons_self

end JackToolchain
