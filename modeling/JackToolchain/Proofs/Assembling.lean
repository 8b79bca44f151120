import JackToolchain.Proofs.Programs
import JackToolchain.Proofs.Vm.Separation

/-!
# Assembling programs

The lines of units that can be linked are read by the assembler, and they are assembled if they fit
into the program memory. The symbol table of the result has everything that has a symbol in the
program, under a symbol of its own.
-/
namespace JackToolchain

open Assembly (Instruction Line codeOf instructionsOf isSymbol labelsOf symbolsOf variablesOf)
open Machine
open Vm

/-! ## What is assembled -/

/-- The instructions of a program of units. -/
def programCode (options : Options) (units : List (String × List Command)) : List Instruction :=
  prologue options ++ ((programSites options.bootstrap units).map Site.block).flatten ++
    epilogue options

/-- Whether a unit has a static variable with this number. -/
def HasStatic (unit : String × List Command) (index : Nat) : Prop :=
  ∃ command ∈ unit.2, command.UsesStatic index

/-- A symbol table that tells apart what has a symbol in a program of these units. -/
structure Separates (bootstrap : Bool) (units : List (String × List Command))
    (symbols : Assembly.SymbolTable) : Prop where
  /-- Everything has an address. -/
  known : ∀ holder : Holder, holder.Of bootstrap units →
    ∃ address, symbols.address? holder.symbol = some address
  /-- No two things have one symbol. -/
  own : ∀ left right : Holder, left.Of bootstrap units → right.Of bootstrap units →
    left.symbol = right.symbol → left = right
  /-- No symbol is a name of the platform. -/
  fresh : ∀ holder : Holder, holder.Of bootstrap units →
    holder.symbol ∉ Assembly.predefined.map Prod.fst
  /-- No label is placed twice. -/
  once : (landmarks (programSites bootstrap units)).Nodup
  /-- A jump goes to a label of its own function, which has the symbol that the jump loads. -/
  jumps : ∀ site ∈ programSites bootstrap units, ∀ name ∈ site.command.target?,
    ∃ other ∈ programSites bootstrap units, other.command = .label name ∧
      other.region = site.region ∧ other.numbering.scope = site.numbering.scope
  /-- Static variables have cells behind those of the platform. -/
  cells : ∀ unit ∈ units, ∀ index, HasStatic unit index →
    ∃ cell, symbols.address? (staticSymbol unit.1 index) = some cell ∧
      16 ≤ cell.toNat ∧ cell.toNat < 32768
  /-- Static variables of different units or with different numbers have different cells. -/
  apart : ∀ {first second : Nat} {left right : String × List Command} {index other : Nat},
    units[first]? = some left → units[second]? = some right →
      HasStatic left index → HasStatic right other →
        symbols.address? (staticSymbol left.1 index) =
          symbols.address? (staticSymbol right.1 other) → first = second ∧ index = other

section Linked

variable {options : Options} {units : List (String × List Command)}

/-! ## Instructions -/

/-- The instructions of a program whose commands all have instructions are legal and have words. -/
theorem Vm.AllLinkable.legal (linkable : AllLinkable units)
    (made : ∀ site ∈ programSites options.bootstrap units, site.instructions = .ok site.block) :
    ∀ instruction ∈ programCode options units,
      instruction.Legal ∧ instruction.isEncodable = true := by
  refine List.forall_mem_append.mpr ⟨List.forall_mem_append.mpr ⟨?_, ?_⟩, ?_⟩
  · have plain : (prologue options).all isPlain = true := by
      unfold prologue
      split <;> decide
    exact fun instruction member => legal_of_isPlain (List.all_eq_true.mp plain instruction member)
  · intro instruction member
    obtain ⟨block, inside, own⟩ := List.mem_flatten.mp member
    obtain ⟨site, place, rfl⟩ := List.mem_map.mp inside
    have instructions := made site place
    obtain rfl | ⟨unit, unitMember, start, placed, -⟩ := of_mem_programSites place
    · exact legal_of_instructions instructions (by decide) (by decide) (by decide) instruction own
    · have linkable := linkable.each unit unitMember
      obtain ⟨unitName, command, -⟩ := of_mem_unitSites placed
      have unitSymbol : isSymbol site.unit.toList = true := unitName ▸ linkable.symbol
      have scopeSymbol : isSymbol site.numbering.scope.toList = true :=
        forall_scope (p := fun scope => isSymbol scope.toList = true) placed linkable.symbol
          (fun name named => isSymbol_of_isName named) linkable.spelled
      exact legal_of_instructions instructions unitSymbol scopeSymbol
        (linkable.spelled _ command) instruction own
  · have halt : isSymbol haltLabel.toList = true := by decide
    unfold epilogue
    split
    · exact fun instruction member => by contradiction
    · exact List.forall_mem_cons.mpr ⟨⟨halt, rfl⟩, List.forall_mem_cons.mpr ⟨⟨halt, rfl⟩,
        List.forall_mem_singleton.mpr (legal_of_isPlain (by decide))⟩⟩

/-- At most every other instruction of a program loads a symbol. -/
theorem sparse_programCode
    (made : ∀ site ∈ programSites options.bootstrap units, site.instructions = .ok site.block) :
    Sparse (programCode options units) := by
  have front : Sparse (prologue options) := by
    unfold prologue
    split <;> exact Nat.le_of_ble_eq_true rfl
  have back : Sparse (epilogue options) := by
    unfold epilogue
    split <;> exact Nat.le_of_ble_eq_true rfl
  refine (front.append (sparse_flatten fun block member => ?_)).append back
  obtain ⟨site, place, rfl⟩ := List.mem_map.mp member
  exact sparse_of_instructions (made site place)

/-! ## Labels -/

/-- The labels of a program are the symbols of its landmarks and the label of the halting loop. -/
theorem labelsOf_programCode
    (made : ∀ site ∈ programSites options.bootstrap units, site.instructions = .ok site.block) :
    labelsOf (programCode options units) =
      (landmarks (programSites options.bootstrap units)).map Landmark.symbol ++
        if options.bootstrap then [] else [haltLabel] := by
  have front : labelsOf (prologue options) = [] := by
    unfold prologue
    split <;> rfl
  have back : labelsOf (epilogue options) = if options.bootstrap then [] else [haltLabel] := by
    unfold epilogue
    split <;> rfl
  have blocks : List.Forall₂ (fun site block => site.instructions = .ok block)
      (programSites options.bootstrap units)
      ((programSites options.bootstrap units).map Site.block) :=
    List.forall₂_map_right_iff.mpr (List.forall₂_same.mpr made)
  rw [programCode, labelsOf_append, labelsOf_append, front, back, labelsOf_blocks blocks,
    List.nil_append]

/-- A label of a program is the symbol of something in it that is no static variable. -/
theorem holder_of_mem_labelsOf
    (made : ∀ site ∈ programSites options.bootstrap units, site.instructions = .ok site.block)
    {name : String} (member : name ∈ labelsOf (programCode options units)) :
    ∃ holder : Holder, holder.Of options.bootstrap units ∧ holder.symbol = name ∧
      ∀ unit index, holder ≠ .static unit index := by
  rw [labelsOf_programCode made] at member
  rcases List.mem_append.mp member with own | last
  · obtain ⟨landmark, placed, rfl⟩ := List.mem_map.mp own
    exact ⟨.place landmark, placed, rfl, by simp⟩
  · split at last
    · contradiction
    · rename_i noBootstrap
      have halts : options.bootstrap = false := by simpa using noBootstrap
      exact ⟨.halt, halts, (List.mem_singleton.mp last).symm, by simp⟩

/-- The labels of a program are different. -/
theorem Vm.AllLinkable.nodup_labelsOf (linkable : AllLinkable units)
    (made : ∀ site ∈ programSites options.bootstrap units, site.instructions = .ok site.block) :
    (labelsOf (programCode options units)).Nodup := by
  rw [labelsOf_programCode made]
  refine List.nodup_append.mpr ⟨?_, ?_, ?_⟩
  · refine (linkable.nodup options.bootstrap).map_on fun left first right second same => ?_
    exact Landmark.symbol_inj (linkable.plain first) (linkable.plain second) same
  · split
    · exact List.nodup_nil
    · exact List.nodup_singleton _
  · rintro name own _ last rfl
    obtain ⟨landmark, placed, rfl⟩ := List.mem_map.mp own
    split at last
    · contradiction
    · exact linkable.symbol_ne_bare placed (by decide) (List.mem_singleton.mp last)

/-! ## Cells -/

/-- A command of a unit has a place in the program. -/
theorem exists_mem_programSites {bootstrap : Bool} {unit : String × List Command}
    {command : Command} (member : unit ∈ units) (inside : command ∈ unit.2) :
    ∃ site ∈ programSites bootstrap units, site.unit = unit.1 ∧ site.command = command := by
  unfold programSites
  cases bootstrap with
  | false => exact exists_mem_sites member inside
  | true =>
    obtain ⟨site, place, own⟩ := @exists_mem_sites 1 units unit command member inside
    exact ⟨site, List.mem_cons_of_mem _ place, own⟩

/-- A static variable of a unit has a symbol in the program. -/
theorem of_hasStatic {unit : String × List Command} {index : Nat} (bootstrap : Bool)
    (member : unit ∈ units) (has : HasStatic unit index) :
    (Holder.static unit.1 index).Of bootstrap units := by
  obtain ⟨command, inside, uses⟩ := has
  obtain ⟨site, place, own, rfl⟩ := @exists_mem_programSites units bootstrap unit command member
    inside
  exact ⟨site, place, own, uses⟩

variable {nodes : List (Spanned Instruction)} {program : Assembly.Program}

/-- A symbol that is loaded, and that is neither a name of the platform nor a label, has one of the
first cells behind those of the platform. -/
theorem exists_cell_of_loaded (assembled : Assembly.assembleInstructions nodes = .ok program)
    (sparse : Sparse (instructionsOf nodes)) {name : String}
    (loaded : name ∈ symbolsOf (instructionsOf nodes))
    (fresh : name ∉ Assembly.predefined.map Prod.fst)
    (noLabel : name ∉ labelsOf (instructionsOf nodes)) :
    ∃ k < 16384, (variablesOf (instructionsOf nodes))[k]? = some name ∧
      program.symbols.address? name = some (Assembly.firstVariable + UInt16.ofNat k) := by
  obtain ⟨-, all, few⟩ := Assembly.of_variablesOf (instructionsOf nodes)
  obtain ⟨k, there⟩ := List.mem_iff_getElem?.mp (all name loaded fresh noLabel)
  obtain ⟨inside, -⟩ := List.getElem?_eq_some_iff.mp there
  have fits := (Assembly.assemblable_of_assembleInstructions assembled).fits
  have room : romSize = 32768 := rfl
  unfold Sparse at sparse
  exact ⟨k, by omega, there, Assembly.address?_variable assembled there⟩

/-- A static variable has one of the first cells behind those of the platform. -/
theorem Vm.AllLinkable.exists_cell (linkable : AllLinkable units)
    (made : ∀ site ∈ programSites options.bootstrap units, site.instructions = .ok site.block)
    (code : instructionsOf nodes = programCode options units)
    (assembled : Assembly.assembleInstructions nodes = .ok program) {unit : String} {index : Nat}
    (held : (Holder.static unit index).Of options.bootstrap units) :
    ∃ k < 16384, (variablesOf (instructionsOf nodes))[k]? = some (staticSymbol unit index) ∧
      program.symbols.address? (staticSymbol unit index) =
        some (Assembly.firstVariable + UInt16.ofNat k) := by
  have loaded : staticSymbol unit index ∈ symbolsOf (instructionsOf nodes) := by
    obtain ⟨site, place, rfl, uses⟩ := held
    have own := mem_symbolsOf_of_usesStatic uses (made site place)
    obtain ⟨instruction, inside, symbol⟩ := List.mem_filterMap.mp own
    rw [code]
    refine List.mem_filterMap.mpr ⟨instruction, ?_, symbol⟩
    refine List.mem_append_left _ (List.mem_append_right _ ?_)
    exact List.mem_flatten.mpr ⟨site.block, List.mem_map_of_mem place, inside⟩
  have noLabel : staticSymbol unit index ∉ labelsOf (instructionsOf nodes) := by
    intro member
    rw [code] at member
    obtain ⟨holder, other, same, noStatic⟩ := holder_of_mem_labelsOf made member
    exact noStatic unit index (linkable.symbol_inj other held same)
  exact exists_cell_of_loaded assembled (code ▸ sparse_programCode made) loaded
    (linkable.symbol_notMem_predefined held) noLabel

/-- The cell of a variable by its number. -/
theorem toNat_cell {k : Nat} (few : k < 16384) :
    (Assembly.firstVariable + UInt16.ofNat k).toNat = 16 + k := by
  rw [UInt16.toNat_add, UInt16.toNat_ofNat']
  have first : Assembly.firstVariable.toNat = 16 := rfl
  omega

/-! ## Symbol tables -/

/-- A label has an address if all labels have one. -/
theorem address_of_labelsAt {address? : String → Option Word} {start : Word}
    {code : List Instruction} (placed : Assembly.LabelsAt address? start code) {name : String}
    (member : name ∈ labelsOf code) : ∃ address, address? name = some address := by
  induction code generalizing start with
  | nil => contradiction
  | cons instruction rest ih =>
    cases instruction with
    | label own =>
      rcases List.mem_cons.mp member with rfl | later
      · exact ⟨start, placed.1⟩
      · exact ih placed.2 later
    | address value => exact ih placed member
    | symbol name => exact ih placed member
    | compute dest comp jump => exact ih placed member

/-- Everything in an assembled program of units that can be linked has an address. -/
theorem Vm.AllLinkable.exists_address (linkable : AllLinkable units)
    (made : ∀ site ∈ programSites options.bootstrap units, site.instructions = .ok site.block)
    (code : instructionsOf nodes = programCode options units)
    (assembled : Assembly.assembleInstructions nodes = .ok program) {holder : Holder}
    (held : holder.Of options.bootstrap units) :
    ∃ address, program.symbols.address? holder.symbol = some address := by
  have labels := Assembly.labelsAt_of_assembleInstructions assembled
  rw [code] at labels
  have labelled {name : String} (member : name ∈ labelsOf (programCode options units)) :=
    address_of_labelsAt labels member
  rw [labelsOf_programCode made] at labelled
  cases holder with
  | place landmark => exact labelled (List.mem_append_left _ (List.mem_map_of_mem held))
  | static unit index =>
    obtain ⟨k, -, -, address⟩ := linkable.exists_cell made code assembled held
    exact ⟨_, address⟩
  | halt =>
    have halts : options.bootstrap = false := held
    refine labelled (List.mem_append_right _ ?_)
    rw [halts]
    exact List.mem_cons_self

/-- Static variables with one address are one variable of one unit. -/
theorem Vm.AllLinkable.static_inj (linkable : AllLinkable units)
    (made : ∀ site ∈ programSites options.bootstrap units, site.instructions = .ok site.block)
    (code : instructionsOf nodes = programCode options units)
    (assembled : Assembly.assembleInstructions nodes = .ok program) {first second : Nat}
    {left right : String × List Command} {index other : Nat} (firstUnit : units[first]? = some left)
    (secondUnit : units[second]? = some right) (firstHas : HasStatic left index)
    (secondHas : HasStatic right other)
    (same : program.symbols.address? (staticSymbol left.1 index) =
      program.symbols.address? (staticSymbol right.1 other)) : first = second ∧ index = other := by
  obtain ⟨i, few, there, address⟩ := linkable.exists_cell made code assembled
    (of_hasStatic options.bootstrap (List.mem_of_getElem? firstUnit) firstHas)
  obtain ⟨j, fewer, others, another⟩ := linkable.exists_cell made code assembled
    (of_hasStatic options.bootstrap (List.mem_of_getElem? secondUnit) secondHas)
  rw [address, another] at same
  have numbers := congrArg UInt16.toNat (Option.some.inj same)
  rw [toNat_cell few, toNat_cell fewer] at numbers
  obtain rfl : i = j := by omega
  obtain ⟨unit, number⟩ := staticSymbol_inj (Option.some.inj (there.symm.trans others))
  refine ⟨?_, number⟩
  have leftName : (units.map Prod.fst)[first]? = some left.1 := by
    rw [List.getElem?_map, firstUnit, Option.map_some]
  have rightName : (units.map Prod.fst)[second]? = some left.1 := by
    rw [List.getElem?_map, secondUnit, Option.map_some, unit]
  obtain ⟨inside, -⟩ := List.getElem?_eq_some_iff.mp leftName
  exact (List.getElem?_inj inside linkable.names).mp (leftName.trans rightName.symm)

/-- The symbol table of an assembled program of units that can be linked separates them. -/
theorem Vm.AllLinkable.separates (linkable : AllLinkable units)
    (made : ∀ site ∈ programSites options.bootstrap units, site.instructions = .ok site.block)
    (code : instructionsOf nodes = programCode options units)
    (assembled : Assembly.assembleInstructions nodes = .ok program) :
    Separates options.bootstrap units program.symbols := by
  constructor
  case known => exact fun holder held => linkable.exists_address made code assembled held
  case own => exact fun left right first second same => linkable.symbol_inj first second same
  case fresh => exact fun holder held => linkable.symbol_notMem_predefined held
  case once => exact linkable.nodup options.bootstrap
  case jumps =>
    intro site place name jumps
    obtain rfl | ⟨unit, member, start, inside, subset⟩ := of_mem_programSites place
    · contradiction
    · obtain ⟨other, there, rest⟩ :=
        label_of_target (linkable.each unit member).functional inside jumps
      exact ⟨other, subset there, rest⟩
  case cells =>
    intro unit member index has
    obtain ⟨k, few, -, address⟩ :=
      linkable.exists_cell made code assembled (of_hasStatic options.bootstrap member has)
    refine ⟨_, address, ?_⟩
    rw [toNat_cell few]
    omega
  case apart => exact linkable.static_inj made code assembled

/-- The lines of a program are its code, and they are read back. -/
theorem programCode_written {written : List (List Line)} (standard : options.layout = {})
    (made : List.Forall₂ (HasLines options) units written)
    (named : ∀ unit ∈ units, '\n' ∉ unit.1.toList) :
    (∀ site ∈ programSites options.bootstrap units, site.instructions = .ok site.block) ∧
      codeOf (programLines options written) = programCode options units ∧
      ∀ line ∈ programLines options written, line.Readable := by
  obtain ⟨blocks, matched, code, readable⟩ := programSites_written standard made named
  obtain rfl := eq_map_block matched
  exact ⟨List.forall₂_same.mp (List.forall₂_map_right_iff.mp matched), code, readable⟩

/-- Units that can be linked are read by the assembler, and if their program fits into the program
memory, it is assembled with a symbol table that separates them. -/
theorem Vm.AllLinkable.assembles (linkable : AllLinkable units) {written : List (List Line)}
    (standard : options.layout = {}) (made : List.Forall₂ (HasLines options) units written) :
    ∃ nodes, Assembly.readProgram (Assembly.linesText (programLines options written) ++ "\n") =
        .ok nodes ∧
      instructionsOf nodes = programCode options units ∧
      (size (instructionsOf nodes) ≤ romSize →
        ∃ program, Assembly.assembleInstructions nodes = .ok program ∧
          Separates options.bootstrap units program.symbols) := by
  have named : ∀ unit ∈ units, '\n' ∉ unit.1.toList := fun unit member inside =>
    absurd (Assembly.visible_of_isSymbol (linkable.each unit member).symbol _ inside).2 (by decide)
  obtain ⟨instructions, same, readable⟩ := programCode_written standard made named
  have legal := linkable.legal instructions
  obtain ⟨nodes, read, own⟩ := Assembly.readProgram_linesText
    (programLines_ne_nil options written) readable
    fun instruction member => (legal instruction (same ▸ member)).1
  rw [same] at own
  refine ⟨nodes, read, own, fun fits => ?_⟩
  obtain ⟨program, assembled⟩ := Assembly.assembleInstructions_accepts
    (own ▸ linkable.nodup_labelsOf instructions)
    (fun name member => by
      rw [own] at member
      obtain ⟨holder, held, rfl, -⟩ := holder_of_mem_labelsOf instructions member
      exact linkable.symbol_notMem_predefined held)
    (by
      rw [own]
      exact List.all_eq_true.mpr fun instruction member => (legal instruction member).2)
    fits
  exact ⟨program, assembled, linkable.separates instructions own assembled⟩

end Linked

end JackToolchain
