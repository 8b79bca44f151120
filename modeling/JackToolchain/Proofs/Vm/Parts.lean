import JackToolchain.Proofs.Vm.Requests

/-!
# Parts of blocks

What the instructions of commands are made of, whatever the memory map. A block loads cells that
blocks use for themselves, the place that its command has, the target of its jump and the symbol
that it leaves to the assembler; it places the landmark of its command and nothing else; and its
computations are made of the characters of compute instructions. So it is read back if the names in
it stand on one line.
-/
namespace JackToolchain.Vm

open Assembly (Instruction isField labelsOf symbolsOf)

section Commands

variable {layout : Layout} {unit : String} {numbering : Numbering} {command : Command}
variable {block : List Instruction} {name : String}

/-! ## Symbols -/

/-- A symbol that a block loads is a cell of blocks, or the place or the target of the command, or
the symbol that the command leaves to the assembler. -/
theorem of_mem_symbolsOf (made : command.instructions layout unit numbering = .ok block)
    (loaded : name ∈ symbolsOf block) :
    name ∈ layout.cellNames ∨ (∃ landmark ∈ command.landmark? numbering, landmark.symbol = name) ∨
      (∃ target ∈ command.target?, numbering.labelSymbol target = name) ∨
      name ∈ command.requested? unit := by
  by_contra other
  obtain ⟨noCell, noPlace, noTarget, notAsked⟩ : name ∉ layout.cellNames ∧
      (∀ landmark ∈ command.landmark? numbering, landmark.symbol ≠ name) ∧
      (∀ target ∈ command.target?, numbering.labelSymbol target ≠ name) ∧
      name ∉ command.requested? unit := by
    simpa only [not_or, not_exists, not_and] using other
  -- If only this name is asked for, then the block asks for what its command asks for.
  have asked := @filter_symbolsOf layout unit numbering command block (· == name) made
    (fun cell member => beq_eq_false_iff_ne.mpr fun same => noCell (same ▸ member))
    (fun landmark own => beq_eq_false_iff_ne.mpr (noPlace landmark own))
    fun target own => beq_eq_false_iff_ne.mpr (noTarget target own)
  have inside : name ∈ (symbolsOf block).filter (· == name) :=
    List.mem_filter.mpr ⟨loaded, beq_self_eq_true name⟩
  rw [asked] at inside
  exact notAsked (Option.mem_toList.mp (List.mem_filter.mp inside).1)

/-- The symbol of the landmark of a command is one of its symbols. -/
theorem symbol_mem_symbols {landmark : Landmark}
    (own : landmark ∈ command.landmark? numbering) :
    landmark.symbol ∈ command.symbols unit numbering := by
  obtain ⟨name, locals, rfl, rfl⟩ | ⟨name, rfl, rfl⟩ | ⟨operation, rfl, -, rfl⟩ |
    ⟨name, args, rfl, rfl⟩ := of_landmark? own
  · exact List.mem_singleton.mpr (Landmark.symbol_entry name)
  · exact List.mem_singleton.mpr (Landmark.symbol_label numbering name)
  · exact List.mem_singleton.mpr (Landmark.symbol_comparison numbering)
  · exact List.mem_cons_of_mem _ (List.mem_singleton.mpr (Landmark.symbol_call numbering))

/-- The symbols that a block loads are cells of blocks or symbols of its command. -/
theorem mem_cellNames_or_symbols
    (made : command.instructions layout unit numbering = .ok block)
    (loaded : name ∈ symbolsOf block) :
    name ∈ layout.cellNames ∨ name ∈ command.symbols unit numbering := by
  rcases of_mem_symbolsOf made loaded with cell | ⟨landmark, own, rfl⟩ | ⟨target, own, rfl⟩ | asked
  · exact .inl cell
  · exact .inr (symbol_mem_symbols own)
  · refine .inr ?_
    cases command with
    | goto label =>
      obtain rfl := Option.some.inj own
      exact List.mem_cons_self
    | ifGoto label =>
      obtain rfl := Option.some.inj own
      exact List.mem_cons_self
    | _ => contradiction
  · refine .inr ?_
    cases command with
    | push segment index =>
      cases segment with
      | static =>
        obtain rfl := Option.some.inj asked
        exact List.mem_cons_self
      | _ => contradiction
    | pop segment index =>
      cases segment with
      | static =>
        obtain rfl := Option.some.inj asked
        exact List.mem_cons_self
      | _ => contradiction
    | call function args =>
      obtain rfl := Option.some.inj asked
      exact List.mem_cons_self
    | _ => contradiction

/-! ## Computations -/

/-- Whether the fields of a compute instruction are made of the characters of such instructions. -/
def hasFields : Instruction → Bool
  | .compute dest comp jump => isField dest && isField comp && isField jump && comp ≠ ""
  | .address _ | .symbol _ | .label _ => true

/-- The computations of a block are made of the characters of compute instructions. -/
theorem hasFields_of_instructions (made : command.instructions layout unit numbering = .ok block) :
    block.all hasFields = true := by
  cases lowers_of_instructions made with
  | operate operation => cases operation <;> rfl
  | @push segment index location located => cases location <;> rfl
  | @pop segment index location block located popped =>
    cases location with
    | constant value => contradiction
    | _ =>
      obtain rfl := Option.some.inj popped
      rfl
  | function name inRange =>
    refine List.all_eq_true.mpr fun instruction member => ?_
    rcases mem_functionBlock member with rfl | zero
    · rfl
    · have zeros : pushZero.all hasFields = true := rfl
      exact List.all_eq_true.mp zeros instruction zero
  | _ => rfl

/-- Instructions are read back if their symbols and labels stand on one line and their fields are
made of the characters of compute instructions. -/
theorem readable_of_hasFields {code : List Instruction} (fields : code.all hasFields = true)
    (symbols : ∀ name ∈ symbolsOf code, '\n' ∉ name.toList)
    (labels : ∀ name ∈ labelsOf code, '\n' ∉ name.toList) :
    ∀ instruction ∈ code, instruction.Readable := by
  intro instruction member
  cases instruction with
  | address value => trivial
  | symbol name => exact symbols name (List.mem_filterMap.mpr ⟨_, member, rfl⟩)
  | label name => exact labels name (List.mem_filterMap.mpr ⟨_, member, rfl⟩)
  | compute dest comp jump =>
    have own := List.all_eq_true.mp fields _ member
    simp only [hasFields, Bool.and_eq_true, decide_eq_true_eq] at own
    exact ⟨own.1.1.1, own.1.1.2, own.1.2, own.2⟩

/-- The instructions of a command are read back if the names in them stand on one line. -/
theorem readable_of_instructions (made : command.instructions layout unit numbering = .ok block)
    (cellsWhole : ∀ name ∈ layout.cellNames, '\n' ∉ name.toList) (unitWhole : '\n' ∉ unit.toList)
    (scopeWhole : '\n' ∉ numbering.scope.toList) (spelled : command.Spelled) :
    ∀ instruction ∈ block, instruction.Readable := by
  have whole : ∀ name ∈ command.symbols unit numbering, '\n' ∉ name.toList :=
    forall_symbols spelled (fun index => whole_staticSymbol unitWhole index)
      (fun name own => whole_labelSymbol scopeWhole (whole_of_all_isSymbolChar own))
      fun name named => whole_of_isName named
  refine readable_of_hasFields (hasFields_of_instructions made) (fun name loaded => ?_)
    fun name label => ?_
  · rcases mem_cellNames_or_symbols made loaded with cell | own
    · exact cellsWhole name cell
    · exact whole name own
  · rw [labelsOf_instructions made] at label
    obtain ⟨landmark, own, rfl⟩ := Option.map_eq_some_iff.mp (Option.mem_toList.mp label)
    exact whole _ (symbol_mem_symbols own)

end Commands

/-! ## Places -/

/-- What holds of the name of a unit and of names holds of the scopes of the unit. -/
theorem forall_scope {p : String → Prop} {unit : String} {region : Nat} {commands : List Command}
    {site : Site} (place : site ∈ unitSites unit region { scope := unit } commands) (own : p unit)
    (named : ∀ name, isName name.toList = true → p name)
    (spelled : ∀ command ∈ commands, command.Spelled) : p site.numbering.scope := by
  rcases (of_mem_unitSites place).2.2 with same | entered
  · rw [same]
    exact own
  · obtain ⟨entry, inside, name⟩ := List.mem_filterMap.mp entered
    cases entry with
    | function function locals =>
      obtain rfl := Option.some.inj name
      exact named _ (spelled _ inside).1
    | _ => contradiction

/-- The blocks of a unit of well-spelled commands are read back if the names of the unit and of the
cells of blocks stand on one line. -/
theorem readable_of_unitSites {layout : Layout} {unit : String} {region : Nat}
    {commands : List Command} {blocks : List (List Instruction)}
    (made : List.Forall₂ (fun site block =>
        site.command.instructions layout site.unit site.numbering = .ok block)
      (unitSites unit region { scope := unit } commands) blocks)
    (cellsWhole : ∀ name ∈ layout.cellNames, '\n' ∉ name.toList) (unitWhole : '\n' ∉ unit.toList)
    (spelled : ∀ command ∈ commands, command.Spelled) :
    ∀ block ∈ blocks, ∀ instruction ∈ block, instruction.Readable := by
  intro block member
  obtain ⟨site, place, own⟩ := exists_mem_left made member
  obtain ⟨sameUnit, inside, -⟩ := of_mem_unitSites place
  have scopeWhole : '\n' ∉ site.numbering.scope.toList :=
    forall_scope (p := fun scope => '\n' ∉ scope.toList) place unitWhole
      (fun name named => whole_of_isName named) spelled
  exact readable_of_instructions own cellsWhole (sameUnit ▸ unitWhole) scopeWhole
    (spelled _ inside)

end JackToolchain.Vm
