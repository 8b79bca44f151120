import JackToolchain.Proofs.Assembly.Reference
import JackToolchain.Proofs.Vm.Separation

/-!
# Requested symbols

The symbols whose addresses a program leaves to the assembler: those of its static variables, and
those of the functions that it calls. All other symbols in the block of a command are names of the
platform, places of the block itself or targets of jumps. So the symbols of a program that are
neither names of the platform nor labels can be listed from its commands, in the order of their
uses.
-/
namespace JackToolchain.Vm

open Assembly (Instruction symbolsOf)

/-- The symbol that a command leaves to the assembler: its static variable or the function that it
calls. -/
def Command.requested? (unit : String) : Command → Option String
  | .push .static index | .pop .static index => some (staticSymbol unit index)
  | .call name _ => some name
  | _ => none

/-- The symbols that a program with a bootstrap leaves to the assembler, in order. -/
def requested (units : List (String × List Command)) : List String :=
  ({} : Layout).entry :: units.flatMap fun unit => unit.2.filterMap (Command.requested? unit.1)

/-! ## Symbols of instructions -/

section Symbols

variable {layout : Layout} {asked : String → Bool} {code block : List Instruction}

/-- Symbols of consecutive instructions. -/
theorem symbolsOf_append (front back : List Instruction) :
    symbolsOf (front ++ back) = symbolsOf front ++ symbolsOf back := List.filterMap_append

/-- The symbols in front of the first use of a symbol are those of the instructions in front of
it. -/
theorem symbolsOf_takeWhile (code : List Instruction) (name : String) :
    symbolsOf (code.takeWhile (· ≠ .symbol name)) = (symbolsOf code).takeWhile (· ≠ name) := by
  induction code with
  | nil => rfl
  | cons instruction rest ih =>
    cases instruction with
    | symbol other =>
      by_cases same : other = name
      · subst same
        have uses : symbolsOf (.symbol other :: rest) = other :: symbolsOf rest := rfl
        rw [uses, List.takeWhile_cons_of_neg (by simp), List.takeWhile_cons_of_neg (by simp)]
        rfl
      · have uses (front : List Instruction) :
            symbolsOf (.symbol other :: front) = other :: symbolsOf front := rfl
        rw [uses, List.takeWhile_cons_of_pos (by simpa using same), uses, ih,
          List.takeWhile_cons_of_pos (by simpa using same)]
    | _ =>
      rw [List.takeWhile_cons_of_pos (by simp)]
      exact ih

/-- What is asked for in front of a name that is asked for does not depend on the order of asking
and cutting. -/
theorem filter_takeWhile {names : List String} {name : String} (own : asked name = true) :
    (names.takeWhile (· ≠ name)).filter asked = (names.filter asked).takeWhile (· ≠ name) := by
  induction names with
  | nil => rfl
  | cons other rest ih =>
    by_cases same : other = name
    · subst same
      rw [List.takeWhile_cons_of_neg (by simp), List.filter_cons_of_pos own,
        List.takeWhile_cons_of_neg (by simp)]
      rfl
    · rw [List.takeWhile_cons_of_pos (by simpa using same)]
      by_cases more : asked other = true
      · rw [List.filter_cons_of_pos more, List.filter_cons_of_pos more,
          List.takeWhile_cons_of_pos (by simpa using same), ih]
      · rw [List.filter_cons_of_neg more, List.filter_cons_of_neg more, ih]

/-- The names of the cells that the blocks of commands use for themselves. -/
def Layout.cellNames (layout : Layout) : List String :=
  ["SP", "LCL", "ARG", "THIS", "THAT", layout.frameRegister, layout.returnRegister]

/-- The names in a memory map: that of its entry and those of the cells of blocks. -/
def Layout.names (layout : Layout) : List String := layout.entry :: layout.cellNames

/-- Nothing is asked for among the cells of blocks if none of them is. -/
theorem filter_cells {names : List String} (cells : ∀ name ∈ layout.cellNames, asked name = false)
    (inside : ∀ name ∈ names, name ∈ layout.cellNames) : names.filter asked = [] := by
  apply List.filter_eq_nil_iff.mpr
  intro name member
  rw [cells name (inside name member)]
  exact Bool.false_ne_true

/-- Cells of blocks around another name do not matter. -/
theorem filter_around {front back : List String} (name : String)
    (cells : ∀ name ∈ layout.cellNames, asked name = false)
    (before : ∀ name ∈ front, name ∈ layout.cellNames)
    (behind : ∀ name ∈ back, name ∈ layout.cellNames) :
    (front ++ name :: back).filter asked = [name].filter asked := by
  rw [← List.singleton_append, List.filter_append, List.filter_append,
    filter_cells cells before, filter_cells cells behind, List.nil_append, List.append_nil]

end Symbols

/-! ## Symbols of commands -/

section Commands

variable {layout : Layout} {unit : String} {numbering : Numbering} {command : Command}
variable {block : List Instruction} {asked : String → Bool} {segment : Segment} {index : Nat}
variable {location : Location}

/-- The symbol of a location, if it has one. -/
def Location.name? : Location → Option String
  | .named name => some name
  | _ => none

/-- The symbol of a location is that of a static variable or a cell of blocks. -/
theorem filter_name? (cells : ∀ name ∈ layout.cellNames, asked name = false)
    (located : locate? layout unit segment index = some location) :
    location.name?.toList.filter asked =
      ((Command.push segment index).requested? unit).toList.filter asked := by
  cases livesAt_of_locate? located with
  | above base small => cases base <;> rfl
  | this => exact filter_cells cells (by simp [Location.name?, Pointer.symbol, Layout.cellNames])
  | that => exact filter_cells cells (by simp [Location.name?, Pointer.symbol, Layout.cellNames])
  | _ => rfl

/-- A push asks for the symbol of its location. -/
theorem filter_symbolsOf_push (location : Location)
    (cells : ∀ name ∈ layout.cellNames, asked name = false) :
    (symbolsOf location.push).filter asked = location.name?.toList.filter asked := by
  have stack : (["SP", "SP"] : List String).filter asked = [] :=
    filter_cells cells (by simp [Layout.cellNames])
  cases location with
  | named name =>
    have uses : symbolsOf (Location.named name).push = [] ++ name :: ["SP", "SP"] := rfl
    rw [uses]
    exact filter_around name cells (by simp) (by simp [Layout.cellNames])
  | constant value => exact stack
  | cell address => exact stack
  | indirect base offset =>
    have uses : ∀ name ∈ [base.symbol, "SP", "SP"], name ∈ layout.cellNames := by
      cases base <;> simp [Pointer.symbol, Layout.cellNames]
    exact filter_cells cells uses

/-- A pop asks for the symbol of its location. -/
theorem filter_symbolsOf_pop (cells : ∀ name ∈ layout.cellNames, asked name = false)
    (popped : location.pop? layout = some block) :
    (symbolsOf block).filter asked = location.name?.toList.filter asked := by
  have stack : ∀ name ∈ ["SP"], name ∈ layout.cellNames := by simp [Layout.cellNames]
  cases location with
  | constant value => contradiction
  | named name =>
    obtain rfl := Option.some.inj popped
    exact filter_around name cells stack (List.forall_mem_nil _)
  | cell address =>
    obtain rfl := Option.some.inj popped
    exact filter_cells cells stack
  | indirect base offset =>
    obtain rfl := Option.some.inj popped
    have uses : ∀ name ∈ [base.symbol, layout.frameRegister, "SP", layout.frameRegister],
        name ∈ layout.cellNames := by
      cases base <;> simp [Pointer.symbol, Layout.cellNames]
    exact filter_cells cells uses

/-- What is asked for in a block is what its command leaves to the assembler, if the places of the
block and the targets of its jumps are not asked for. -/
theorem filter_symbolsOf (made : command.instructions layout unit numbering = .ok block)
    (cells : ∀ name ∈ layout.cellNames, asked name = false)
    (places : ∀ landmark ∈ command.landmark? numbering, asked landmark.symbol = false)
    (jumps : ∀ name ∈ command.target?, asked (numbering.labelSymbol name) = false) :
    (symbolsOf block).filter asked = (command.requested? unit).toList.filter asked := by
  have skipped {name : String} (own : asked name = false) : [name].filter asked = [] :=
    List.filter_eq_nil_iff.mpr (List.forall_mem_singleton.mpr (by simp [own]))
  have stack : ∀ name ∈ ["SP"], name ∈ layout.cellNames := by simp [Layout.cellNames]
  cases lowers_of_instructions made with
  | operate operation =>
    have compared (compares : operation.isComparison = true) :
        (["SP"] ++ numbering.comparisonSymbol :: ["SP"]).filter asked = [] := by
      rw [filter_around _ cells stack stack]
      apply skipped
      rw [← Landmark.symbol_comparison]
      apply places
      rw [Command.landmark?, if_pos compares]
      rfl
    cases operation with
    | eq => exact compared rfl
    | gt => exact compared rfl
    | lt => exact compared rfl
    | _ => exact filter_cells cells stack
  | @push segment index location located =>
    rw [filter_symbolsOf_push location cells, filter_name? cells located]
  | @pop segment index location block located popped =>
    rw [filter_symbolsOf_pop cells popped, filter_name? cells located]
    cases segment <;> rfl
  | label name => rfl
  | goto name => exact skipped (jumps name rfl)
  | ifGoto name =>
    have uses := filter_around (numbering.labelSymbol name) cells stack (List.forall_mem_nil _)
    exact uses.trans (skipped (jumps name rfl))
  | function name inRange =>
    apply filter_cells cells
    intro other member
    obtain ⟨instruction, inside, own⟩ := List.mem_filterMap.mp member
    rcases mem_functionBlock inside with rfl | zero
    · contradiction
    · have symbols : ∀ name ∈ symbolsOf pushZero, name ∈ ["SP"] := by decide
      exact stack other (symbols other (List.mem_filterMap.mpr ⟨instruction, zero, own⟩))
  | @call name args inRange =>
    have back : asked numbering.returnSymbol = false := by
      rw [← Landmark.symbol_call]
      exact places _ rfl
    have uses : symbolsOf (callBlock name args numbering.returnSymbol) =
        numbering.returnSymbol :: (["SP", "SP", "LCL", "SP", "SP", "ARG", "SP", "SP", "THIS", "SP",
          "SP", "THAT", "SP", "SP", "SP", "ARG", "SP", "LCL"] ++ name :: []) := rfl
    rw [uses, List.filter_cons_of_neg (by simp [back])]
    exact filter_around name cells (by simp [Layout.cellNames]) (by simp)
  | «return» =>
    have uses : symbolsOf (returnBlock layout) =
        ["LCL", layout.frameRegister, layout.returnRegister, "SP", "ARG", "ARG", "SP",
          layout.frameRegister, "THAT", layout.frameRegister, "THIS", layout.frameRegister, "ARG",
          layout.frameRegister, "LCL", layout.returnRegister] := rfl
    rw [uses]
    exact filter_cells cells (by simp [Layout.cellNames])

end Commands

/-! ## Symbols of programs -/

section Programs

variable {unit : String} {region : Nat} {numbering : Numbering} {commands : List Command}
variable {asked : String → Bool}

/-- What the commands of a unit leave to the assembler does not depend on where they stand. -/
theorem requested_unitSites (unit : String) (region : Nat) (numbering : Numbering)
    (commands : List Command) :
    (unitSites unit region numbering commands).filterMap
      (fun site => site.command.requested? site.unit) =
        commands.filterMap (Command.requested? unit) := by
  induction commands generalizing region numbering with
  | nil => rfl
  | cons command rest ih =>
    rw [unitSites, List.filterMap_cons, List.filterMap_cons, ih]

/-- What units leave to the assembler is what each of them leaves to it, in order. -/
theorem requested_sites (region : Nat) (units : List (String × List Command)) :
    (sites region units).filterMap (fun site => site.command.requested? site.unit) =
      units.flatMap fun unit => unit.2.filterMap (Command.requested? unit.1) := by
  induction units generalizing region with
  | nil => rfl
  | cons unit rest ih =>
    rw [sites, List.filterMap_append, requested_unitSites, ih, List.flatMap_cons]

/-- What a program leaves to the assembler, by its places. -/
theorem requested_programSites (units : List (String × List Command)) :
    (programSites true units).filterMap (fun site => site.command.requested? site.unit) =
      requested units := by
  rw [programSites, if_pos rfl, List.filterMap_cons, requested_sites]
  rfl

end Programs

end JackToolchain.Vm
