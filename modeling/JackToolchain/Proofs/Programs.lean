import JackToolchain.Proofs.Linking
import JackToolchain.Proofs.Vm.Parts

/-!
# Lines of programs

The lines of a program are the blocks of the commands of its units between the prologue or in front
of the halting loop, and all of them are read back.
-/
namespace JackToolchain

open Assembly (Commented Instruction Line codeOf codeOf_append codeOf_flatten commented_append
  commented_flatten isSymbol labelsOf symbolsOf)
open Machine
open Vm

/-- The instructions of a command in its place; there are none for a command with a fault. -/
def Vm.Site.block (site : Site) : List Instruction :=
  match site.instructions with
  | .ok block => block
  | .error _ => []

/-- The instructions in front of the commands of a program: a bootstrap sets the stack pointer. -/
def prologue (options : Options) : List Instruction :=
  if options.bootstrap then
    [.address 256, .store "D" "A", .symbol "SP", .store "M" "D"]
  else []

/-- The instructions behind the commands of a program: one without a bootstrap ends in a loop. -/
def epilogue (options : Options) : List Instruction :=
  if options.bootstrap then []
  else [.label haltLabel, .symbol haltLabel, .jump "0" "JMP"]

/-- Lines are those of a unit with a name and well-spelled commands, wherever in a text the commands
stand. -/
structure HasLines (options : Options) (unit : String × List Command) (lines : List Line) :
    Prop where
  /-- The commands are well-spelled. -/
  spelled : ∀ command ∈ unit.2, command.Spelled
  /-- The lines are made of the commands. -/
  made : ∃ commands, commands.map (fun command => command.node) = unit.2 ∧
    unitLines options.layout options.comments unit.1 commands = .ok lines

section Written

variable {options : Options} {units : List (String × List Command)}
variable {unit : String × List Command} {lines : List Line}

/-- The lines of a unit are the blocks of its commands, and they are commented. -/
theorem unitSites_written (made : HasLines options unit lines) (region : Nat) :
    ∃ blocks, List.Forall₂ (fun site block =>
          site.command.instructions options.layout site.unit site.numbering = .ok block)
        (unitSites unit.1 region { scope := unit.1 } unit.2) blocks ∧
      codeOf lines = blocks.flatten ∧ Commented lines := by
  obtain ⟨allSpelled, commands, same, unitMade⟩ := made
  obtain ⟨own, blocksMade, flattened⟩ := bind_eq_ok.mp unitMade
  obtain rfl := Except.ok.inj flattened
  have spelled : ∀ command ∈ commands, command.node.Spelled := fun command member =>
    allSpelled _ (same ▸ List.mem_map_of_mem member)
  have commented := commented_of_blocksInto blocksMade spelled fun lines member => by contradiction
  obtain ⟨written, rfl, matched⟩ := sites_of_blocksInto blocksMade region
  rw [same] at matched
  exact ⟨_, matched, codeOf_flatten _, commented_flatten commented⟩

/-- The lines of units are the blocks of their commands, and they are commented. -/
theorem sites_written {written : List (List Line)}
    (made : List.Forall₂ (HasLines options) units written) (region : Nat) :
    ∃ blocks, List.Forall₂ (fun site block =>
          site.command.instructions options.layout site.unit site.numbering = .ok block)
        (sites region units) blocks ∧
      codeOf written.flatten = blocks.flatten ∧ Commented written.flatten := by
  induction made generalizing region with
  | nil => exact ⟨[], .nil, rfl, fun comment member => by contradiction⟩
  | @cons unit lines rest _ own _ ih =>
    obtain ⟨front, frontMatched, frontCode, frontCommented⟩ := unitSites_written own region
    obtain ⟨back, backMatched, backCode, backCommented⟩ := ih (region + unit.2.length + 1)
    refine ⟨front ++ back, List.rel_append frontMatched backMatched, ?_, ?_⟩
    · rw [List.flatten_cons, List.flatten_append, codeOf_append, frontCode, backCode]
    · rw [List.flatten_cons]
      exact commented_append.mpr ⟨frontCommented, backCommented⟩

/-- The lines of a program are commented. -/
theorem commented_programLines {written : List (List Line)}
    (made : List.Forall₂ (HasLines options) units written) :
    Commented (programLines options written) := by
  obtain ⟨-, -, -, commented⟩ := sites_written made 0
  unfold programLines
  split
  · exact commented_append.mpr ⟨commented_blockLines (by decide), commented⟩
  · exact commented_append.mpr ⟨commented, commented_blockLines (by decide)⟩

/-- The instructions of the call with which a bootstrap starts a program. -/
theorem instructions_entry (layout : Layout) :
    (Command.call layout.entry 0).instructions layout bootstrapUnit { scope := bootstrapUnit } =
      .ok (callBlock layout.entry 0 bootstrapSite.numbering.returnSymbol) := by
  rw [Command.instructions, Command.countLimit?]
  exact if_neg (Nat.not_lt_zero _)

/-- The instructions of a bootstrap: it sets the stack pointer and calls the entry. -/
theorem codeOf_bootstrapLines (layout : Layout) (comments : Bool) :
    codeOf (bootstrapLines layout comments) =
      [.address layout.stackBase, .store "D" "A", .symbol "SP", .store "M" "D"] ++
        callBlock layout.entry 0 bootstrapSite.numbering.returnSymbol :=
  codeOf_blockLines "bootstrap"

/-- The labels of a program are the symbols of its landmarks and the label of the halting loop. -/
theorem labelsOf_programLines {written : List (List Line)}
    (made : List.Forall₂ (HasLines options) units written) :
    labelsOf (codeOf (programLines options written)) =
      (landmarks (programSites options.bootstrap units)).map Landmark.symbol ++
        if options.bootstrap then [] else [haltLabel] := by
  obtain ⟨blocks, matched, code, -⟩ := sites_written made 0
  have inside : labelsOf (codeOf written.flatten) =
      (units.flatMap unitLandmarks).map Landmark.symbol := by
    rw [code, labelsOf_blocks matched, landmarks_sites]
  rw [landmarks_programSites, programLines]
  cases options.bootstrap with
  | false =>
    rw [if_neg Bool.false_ne_true, codeOf_append, labelsOf_append, inside]
    rfl
  | true =>
    rw [if_pos rfl, codeOf_append, labelsOf_append, codeOf_bootstrapLines, inside]
    exact (List.append_nil _).symm

/-- The labels of a program are symbols if the names of its units are. -/
theorem isSymbol_of_mem_labelsOf {written : List (List Line)}
    (made : List.Forall₂ (HasLines options) units written)
    (symbols : ∀ unit ∈ units, isSymbol unit.1.toList = true) {name : String}
    (label : name ∈ labelsOf (codeOf (programLines options written))) :
    isSymbol name.toList = true := by
  rw [labelsOf_programLines made] at label
  rcases List.mem_append.mp label with own | last
  · obtain ⟨landmark, placed, rfl⟩ := List.mem_map.mp own
    rw [landmarks_programSites] at placed
    rcases List.mem_append.mp placed with bootstrap | inside
    · have only : landmark = bootstrapLandmark := by
        split at bootstrap
        · exact List.mem_singleton.mp bootstrap
        · contradiction
      rw [only]
      decide
    · obtain ⟨unit, member, there⟩ := List.mem_flatMap.mp inside
      obtain ⟨lines, -, unitMade⟩ := exists_mem_right made member
      rw [unitLandmarks, ← landmarks_unitSites unit.1 0] at there
      obtain ⟨site, place, marks⟩ := List.mem_filterMap.mp there
      have scopeSymbol : isSymbol site.numbering.scope.toList = true :=
        forall_scope (p := fun scope => isSymbol scope.toList = true) place (symbols unit member)
          (fun name named => isSymbol_of_isName named) unitMade.spelled
      exact forall_symbols (p := fun name => isSymbol name.toList = true)
        (unitMade.spelled _ (of_mem_unitSites place).2.1)
        (fun index => isSymbol_staticSymbol (symbols unit member) index)
        (fun name own => isSymbol_labelSymbol scopeSymbol own)
        (fun name named => isSymbol_of_isName named) landmark.symbol (symbol_mem_symbols marks)
  · have only : name = haltLabel := by
      split at last
      · contradiction
      · exact List.mem_singleton.mp last
    rw [only]
    decide

/-- At most every other instruction of a program loads a symbol. -/
theorem sparse_programLines {written : List (List Line)}
    (made : List.Forall₂ (HasLines options) units written) :
    Sparse (codeOf (programLines options written)) := by
  obtain ⟨blocks, matched, code, -⟩ := sites_written made 0
  have inside : Sparse (codeOf written.flatten) := by
    rw [code]
    refine sparse_flatten fun block member => ?_
    obtain ⟨site, -, own⟩ := exists_mem_left matched member
    exact sparse_of_instructions own
  unfold programLines
  split
  · rw [codeOf_append, codeOf_bootstrapLines]
    have stack : Sparse [.address options.layout.stackBase, .store "D" "A", .symbol "SP",
        .store "M" "D"] := Nat.le_of_ble_eq_true rfl
    exact (stack.append (sparse_of_instructions (instructions_entry options.layout))).append inside
  · rw [codeOf_append]
    exact inside.append (Nat.le_of_ble_eq_true rfl)

/-- A program loads the symbols of its static variables. -/
theorem mem_symbolsOf_programLines {written : List (List Line)}
    (made : List.Forall₂ (HasLines options) units written) (member : unit ∈ units)
    {command : Command} (inside : command ∈ unit.2) {index : Nat}
    (uses : command.UsesStatic index) :
    staticSymbol unit.1 index ∈ symbolsOf (codeOf (programLines options written)) := by
  obtain ⟨blocks, matched, code, -⟩ := sites_written made 0
  obtain ⟨site, place, unitName, rfl⟩ := @exists_mem_sites 0 units unit command member inside
  obtain ⟨block, there, own⟩ := exists_mem_right matched place
  have loaded := mem_symbolsOf_of_usesStatic uses own
  obtain ⟨instruction, inBlock, symbol⟩ := List.mem_filterMap.mp loaded
  rw [unitName] at symbol
  have inUnits : instruction ∈ codeOf written.flatten :=
    code ▸ List.mem_flatten.mpr ⟨block, there, inBlock⟩
  refine List.mem_filterMap.mpr ⟨instruction, ?_, symbol⟩
  unfold programLines
  split
  · rw [codeOf_append]
    exact List.mem_append_right _ inUnits
  · rw [codeOf_append]
    exact List.mem_append_left _ inUnits

/-- The instructions of a bootstrap are read back if the names of the memory map stand on one
line. -/
theorem readable_bootstrap {layout : Layout} (comments : Bool)
    (whole : ∀ name ∈ layout.names, '\n' ∉ name.toList) :
    ∀ instruction ∈ codeOf (bootstrapLines layout comments), instruction.Readable := by
  obtain ⟨entryWhole, cellsWhole⟩ := List.forall_mem_cons.mp whole
  have made := instructions_entry layout
  have back : '\n' ∉ bootstrapSite.numbering.returnSymbol.toList := by decide
  rw [codeOf_bootstrapLines]
  have stack : '\n' ∉ "SP".toList := by decide
  refine List.forall_mem_append.mpr ⟨readable_of_hasFields rfl
    (List.forall_mem_singleton.mpr stack) (List.forall_mem_nil _), ?_⟩
  refine readable_of_hasFields rfl (fun name loaded => ?_) (List.forall_mem_singleton.mpr back)
  rcases mem_cellNames_or_symbols made loaded with cell | own
  · exact cellsWhole name cell
  · rcases List.mem_cons.mp own with rfl | landmark
    · exact entryWhole
    · rw [List.mem_singleton.mp landmark]
      exact back

/-- The lines of a program are read back if the names of its units and of the memory map stand on
one line. -/
theorem readable_programLines {written : List (List Line)}
    (made : List.Forall₂ (HasLines options) units written)
    (whole : ∀ name ∈ options.layout.names, '\n' ∉ name.toList)
    (named : ∀ unit ∈ units, '\n' ∉ unit.1.toList) :
    ∀ line ∈ programLines options written, line.Readable := by
  refine (commented_programLines made).readable ?_
  have inside : ∀ instruction ∈ codeOf written.flatten, instruction.Readable := by
    rw [codeOf_flatten]
    intro instruction member
    obtain ⟨code, inWritten, inCode⟩ := List.mem_flatten.mp member
    obtain ⟨lines, there, rfl⟩ := List.mem_map.mp inWritten
    obtain ⟨unit, inUnits, own⟩ := exists_mem_left made there
    obtain ⟨blocks, matched, same, -⟩ := unitSites_written own 0
    rw [same] at inCode
    obtain ⟨block, inBlocks, inBlock⟩ := List.mem_flatten.mp inCode
    exact readable_of_unitSites matched (List.forall_mem_cons.mp whole).2 (named unit inUnits)
      own.spelled block inBlocks instruction inBlock
  unfold programLines
  split
  · rw [codeOf_append]
    exact List.forall_mem_append.mpr ⟨readable_bootstrap _ whole, inside⟩
  · rw [codeOf_append]
    exact List.forall_mem_append.mpr ⟨inside,
      readable_of_hasFields rfl (by decide) (by decide)⟩

/-- The lines of a program are the blocks of its commands between the prologue and the epilogue,
and they are read back. -/
theorem programSites_written {written : List (List Line)} (standard : options.layout = {})
    (made : List.Forall₂ (HasLines options) units written)
    (named : ∀ unit ∈ units, '\n' ∉ unit.1.toList) :
    ∃ blocks, List.Forall₂ (fun site block => site.instructions = .ok block)
        (programSites options.bootstrap units) blocks ∧
      codeOf (programLines options written) =
        prologue options ++ blocks.flatten ++ epilogue options ∧
      ∀ line ∈ programLines options written, line.Readable := by
  have readable := readable_programLines made (by rw [standard]; decide) named
  unfold programSites prologue epilogue
  cases bootstrap : options.bootstrap with
  | false =>
    obtain ⟨blocks, matched, code, -⟩ := sites_written made 0
    rw [standard] at matched
    refine ⟨blocks, matched, ?_, readable⟩
    rw [programLines, bootstrap, if_neg Bool.false_ne_true, codeOf_append, code]
    rfl
  | true =>
    obtain ⟨blocks, matched, code, -⟩ := sites_written made 1
    rw [standard] at matched
    refine ⟨_ :: blocks, .cons (instructions_entry {}) matched, ?_, readable⟩
    rw [programLines, bootstrap, if_pos rfl, codeOf_append, codeOf_bootstrapLines, code, standard,
      if_pos rfl, List.flatten_cons, if_pos rfl, List.append_nil, List.append_assoc]

/-- There are blocks for the places of a program only if they are the blocks of the places. -/
theorem eq_map_block {program : List Site} {blocks : List (List Instruction)}
    (made : List.Forall₂ (fun site block => site.instructions = .ok block) program blocks) :
    blocks = program.map Site.block := by
  induction made with
  | nil => rfl
  | @cons site block _ _ own _ ih => rw [List.map_cons, ← ih, Site.block, own]

/-- A program has lines. -/
theorem programLines_ne_nil (options : Options) (written : List (List Line)) :
    programLines options written ≠ [] := by
  unfold programLines
  split
  · exact List.append_ne_nil_of_left_ne_nil (by
      unfold bootstrapLines blockLines
      exact List.append_ne_nil_of_right_ne_nil _ (List.cons_ne_nil _ _)) _
  · exact List.append_ne_nil_of_right_ne_nil _ (List.cons_ne_nil _ _)

end Written

end JackToolchain
