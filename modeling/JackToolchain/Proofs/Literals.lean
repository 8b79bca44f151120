import JackToolchain.Project
import JackToolchain.Proofs.Programs
import JackToolchain.Proofs.Vm.Numbers

/-!
# Numbers of a project

Which numbers the lines of a project load that an instruction cannot hold. Settings put any number
of 32 bits into a memory map, and any text in the place of its entry. What a command itself brings
is compared with the largest constant, but the start of the stack, the sum that is the address of a
temp cell and a name that is a numeral are written as they are.
-/
namespace JackToolchain

open Assembly (Instruction Line literalsOf maxAddress numbersOf_append numeral?)
open Text (bound32)
open Vm

/-! ## Settings -/

/-- A memory map with the cells and the largest constant of the standard one. -/
structure Vm.Layout.Conventional (layout : Layout) : Prop where
  /-- The blocks of commands use the standard cells for themselves. -/
  cells : layout.cellNames = ({} : Layout).cellNames
  /-- An instruction may load the standard constants. -/
  maxConstant : layout.maxConstant = ({} : Layout).maxConstant

namespace Settings

variable {settings later : Settings} {key : String} {line value : List Char}

/-- No key of a setting changes the cells of blocks or the largest constant. -/
theorem conventional_of_assign (assigned : settings.assign key value = .ok later)
    (own : settings.options.layout.Conventional) : later.options.layout.Conventional := by
  unfold assign at assigned
  dsimp only at assigned
  split at assigned
  all_goals first
    | (obtain rfl := Except.ok.inj assigned
       exact ⟨own.cells, own.maxConstant⟩)
    | (obtain ⟨read, -, changed⟩ := bind_eq_ok.mp assigned
       obtain rfl := Except.ok.inj changed
       exact ⟨own.cells, own.maxConstant⟩)

/-- No line of a file of settings changes the cells of blocks or the largest constant. -/
theorem conventional_of_readLine (read : settings.readLine line = .ok later)
    (own : settings.options.layout.Conventional) : later.options.layout.Conventional := by
  unfold readLine at read
  split at read
  · exact Except.ok.inj read ▸ own
  · split at read
    · obtain rfl := Except.ok.inj read
      exact own
    · split at read
      · contradiction
      · exact conventional_of_assign read own

end Settings

/-- The memory map of a project is conventional. -/
theorem Project.conventional_of_read {root : Files.Path} {text : String} {project : Project}
    (read : Project.read root text = .ok project) : project.options.layout.Conventional := by
  obtain ⟨settings, lines, made⟩ := bind_eq_ok.mp read
  have own : settings.options.layout.Conventional :=
    foldlM_invariant (fun settings => settings.options.layout.Conventional)
      Settings.conventional_of_readLine lines ⟨rfl, rfl⟩
  unfold Settings.toProject at made
  split at made
  · contradiction
  · obtain rfl := Except.ok.inj made
    exact own

/-! ## Numbers that nobody looks at -/

/-- Whether some command uses a temp cell. -/
def UsesTemp (commands : List (Spanned Command)) (index : Nat) : Prop :=
  ∃ command ∈ commands, command.node.UsesTemp index

/-- Whether some command calls a function. -/
def Calls (commands : List (Spanned Command)) (name : String) : Prop :=
  ∃ command ∈ commands, ∃ args, command.node = .call name args

/-- The numbers that a bootstrap and commands load without a look at them. -/
inductive Unchecked (layout : Layout) (commands : List (Spanned Command)) : Nat → Prop where
  /-- The start of the stack. -/
  | stack : Unchecked layout commands layout.stackBase
  /-- The address of a temp cell. -/
  | temp {index : Nat} (uses : UsesTemp commands index) :
    Unchecked layout commands (layout.tempCell index)
  /-- The name of the entry, if it is a numeral. -/
  | entry {number : Nat} (numeral : numeral? layout.entry = some number) :
    Unchecked layout commands number
  /-- The name of a called function, if it is a numeral. -/
  | called {name : String} {number : Nat} (calls : Calls commands name)
    (numeral : numeral? name = some number) : Unchecked layout commands number

/-- The sum that a memory map and a command make. -/
def Vm.Command.sum? (layout : Layout) : Command → Option Nat
  | .push .temp index | .pop .temp index => some (layout.tempBase + index)
  | .call _ args => some (frameSize + args)
  | _ => none

/-- Settings with which the numbers that nobody looks at can be loaded. -/
structure Fitting (layout : Layout) (commands : List (Spanned Command)) : Prop where
  /-- The stack starts at an address. -/
  stack : layout.stackBase ≤ maxAddress
  /-- The temp cells in use have addresses. -/
  temp : ∀ index, UsesTemp commands index → layout.tempBase + index ≤ maxAddress
  /-- The entry is an address if its name is a numeral. -/
  entry : ∀ number, numeral? layout.entry = some number → number ≤ maxAddress
  /-- A called function is an address if its name is a numeral. -/
  called : ∀ name number, Calls commands name → numeral? name = some number → number ≤ maxAddress

section Lines

variable {layout : Layout} {unit : String} {comments : Bool} {commands : List (Spanned Command)}
variable {lines : List Line} {number : Nat}

/-- The numbers on the lines of a bootstrap are the start of the stack, the size of a frame and
perhaps the name of the entry. -/
theorem literalsOf_bootstrapLines (layout : Layout) (comments : Bool) :
    literalsOf (bootstrapLines layout comments) =
      layout.stackBase :: frameSize :: (numeral? layout.entry).toList := by
  have back : numeral? bootstrapSite.numbering.returnSymbol = none := rfl
  have stack : numeral? "SP" = none := rfl
  rw [Assembly.literalsOf_eq (codeOf_bootstrapLines layout comments ▸ rfl), codeOf_bootstrapLines,
    numbersOf_append, numbersOf_callBlock layout.entry 0 back]
  simp [Instruction.store, stack]

/-- The cells of blocks look like no numbers in a conventional memory map. -/
theorem Vm.Layout.Conventional.wordy (own : layout.Conventional) :
    ∀ name ∈ layout.cellNames, numeral? name = none := by
  have standard : ∀ name ∈ ({} : Layout).cellNames, numeral? name = none := by decide
  rw [own.cells]
  exact standard

/-- A number that nobody looks at is on a line. -/
theorem Unchecked.mem_literals (unchecked : Unchecked layout commands number)
    (own : layout.Conventional) (made : unitLines layout comments unit commands = .ok lines) :
    number ∈ literalsOf (bootstrapLines layout comments) ++ literalsOf lines := by
  rw [literalsOf_bootstrapLines, literalsOf_unitLines made own.wordy, List.mem_append]
  cases unchecked with
  | stack => exact .inl List.mem_cons_self
  | entry numeral =>
    refine .inl (List.mem_cons_of_mem _ (List.mem_cons_of_mem _ ?_))
    exact Option.mem_toList.mpr numeral
  | temp uses =>
    obtain ⟨command, inside, uses⟩ := uses
    refine .inr (List.mem_flatMap.mpr ⟨command, inside, ?_⟩)
    rw [uses.numbers_eq]
    exact List.mem_cons_self
  | called calls numeral =>
    obtain ⟨command, inside, args, same⟩ := calls
    refine .inr (List.mem_flatMap.mpr ⟨command, inside, ?_⟩)
    rw [same]
    exact List.mem_cons_of_mem _ (Option.mem_toList.mpr numeral)

/-- A number on a line that an instruction cannot hold is one that nobody looks at. -/
theorem unchecked_of_mem_literals (own : layout.Conventional)
    (made : unitLines layout comments unit commands = .ok lines)
    (member : number ∈ literalsOf (bootstrapLines layout comments) ++ literalsOf lines)
    (large : maxAddress < number) : Unchecked layout commands number := by
  have limit : layout.maxConstant = maxAddress := own.maxConstant
  have framed : frameSize ≤ maxAddress := by decide
  rw [literalsOf_bootstrapLines, literalsOf_unitLines made own.wordy, List.mem_append] at member
  rcases member with front | inside
  · rcases List.mem_cons.mp front with rfl | later
    · exact .stack
    · rcases List.mem_cons.mp later with rfl | named
      · omega
      · exact .entry (Option.mem_toList.mp named)
  · obtain ⟨command, place, loaded⟩ := List.mem_flatMap.mp inside
    have inRange := inRange_of_unitLines made command place
    rcases of_mem_numbers (limit ▸ framed) inRange loaded with
      small | ⟨index, uses, rfl⟩ | ⟨name, args, same, numeral⟩
    · omega
    · exact .temp ⟨command, place, uses⟩
    · exact .called ⟨command, place, args, same⟩ numeral

/-- The address of a used temp cell is a sum. -/
theorem Vm.Command.UsesTemp.sum?_eq {command : Command} {index : Nat}
    (uses : command.UsesTemp index) : command.sum? layout = some (layout.tempBase + index) := by
  rcases uses with rfl | rfl <;> rfl

/-- A sum is the address of a temp cell or the number of words below a called function. -/
theorem of_sum? {command : Command} {sum : Nat} (own : layout.Conventional)
    (inRange : command.InRange layout) (made : command.sum? layout = some sum) :
    (∃ index, command.UsesTemp index ∧ layout.tempBase + index = sum) ∨ sum ≤ maxAddress := by
  cases command with
  | push segment index =>
    cases segment with
    | temp => exact .inl ⟨index, .inl rfl, Option.some.inj made⟩
    | _ => contradiction
  | pop segment index =>
    cases segment with
    | temp => exact .inl ⟨index, .inr rfl, Option.some.inj made⟩
    | _ => contradiction
  | call name args =>
    have few : args ≤ layout.maxConstant - frameSize := inRange
    have limit : layout.maxConstant = maxAddress := own.maxConstant
    have framed : frameSize ≤ maxAddress := by decide
    obtain rfl := Option.some.inj made
    exact .inr (by omega)
  | _ => contradiction

/-- All numbers on the lines can be loaded and all sums are numbers of 32 bits exactly if the
settings fit. -/
theorem fitting_iff (own : layout.Conventional)
    (made : unitLines layout comments unit commands = .ok lines) :
    ((∀ number ∈ literalsOf (bootstrapLines layout comments) ++ literalsOf lines,
        number ≤ maxAddress) ∧
      ∀ command ∈ commands, ∀ sum ∈ command.node.sum? layout, sum < bound32) ↔
      Fitting layout commands := by
  constructor
  · rintro ⟨loaded, summed⟩
    refine ⟨loaded _ (Unchecked.stack.mem_literals own made), fun index uses => ?_,
      fun number numeral => loaded _ ((Unchecked.entry numeral).mem_literals own made),
      fun name number calls numeral =>
        loaded _ ((Unchecked.called calls numeral).mem_literals own made)⟩
    have small := loaded _ ((Unchecked.temp uses).mem_literals own made)
    obtain ⟨command, inside, own⟩ := uses
    have fits : layout.tempBase + index < bound32 := summed command inside _ own.sum?_eq
    rwa [Layout.tempCell, Nat.mod_eq_of_lt fits] at small
  · intro fitting
    constructor
    · intro number member
      by_contra large
      have unchecked := unchecked_of_mem_literals own made member (by omega)
      cases unchecked with
      | stack => exact large fitting.stack
      | @temp index uses => exact large ((Nat.mod_le _ _).trans (fitting.temp index uses))
      | entry numeral => exact large (fitting.entry _ numeral)
      | called calls numeral => exact large (fitting.called _ _ calls numeral)
    · intro command inside sum summed
      have limit : maxAddress < bound32 := by decide
      rcases of_sum? own (inRange_of_unitLines made command inside) summed with
        ⟨index, uses, rfl⟩ | small
      · exact (fitting.temp index ⟨command, inside, uses⟩).trans_lt limit
      · exact small.trans_lt limit

/-- A bootstrap and a unit load a number that an instruction cannot hold exactly if it is one that
nobody looks at. So for a project that was read, all numbers can be loaded and all sums are numbers
of 32 bits exactly if its settings fit. -/
theorem fitting_iff_of_read {root : Files.Path} {text : String} {project : Project}
    (read : Project.read root text = .ok project)
    (made : unitLines project.options.layout comments unit commands = .ok lines) :
    (∀ number, maxAddress < number →
      (number ∈ literalsOf (bootstrapLines project.options.layout comments) ++ literalsOf lines ↔
        Unchecked project.options.layout commands number)) ∧
    (((∀ number ∈ literalsOf (bootstrapLines project.options.layout comments) ++ literalsOf lines,
          number ≤ maxAddress) ∧
        ∀ command ∈ commands, ∀ sum ∈ command.node.sum? project.options.layout, sum < bound32) ↔
      Fitting project.options.layout commands) := by
  have own := Project.conventional_of_read read
  refine ⟨fun number large => ⟨fun member => ?_, fun unchecked => ?_⟩, fitting_iff own made⟩
  · exact unchecked_of_mem_literals own made member large
  · exact unchecked.mem_literals own made

/-- Settings that put the stack and the temp cells at high addresses. -/
def highSettings : String :=
  "[project]\nname = \"high\"\n[machine]\nstack_base = 2048\ntemp_base = 32760\n"

/-- The project with these settings. -/
def highProject : Project where
  name := "high"
  root := ⟨"."⟩
  source := ⟨"."⟩
  output := ⟨"./high.asm"⟩
  options := { layout := { stackBase := 2048, tempBase := 32760 } }

/-- A unit that uses a temp cell. -/
def keepingCommands : List (Spanned Command) :=
  [⟨.pop .temp 7, ⟨0, 10⟩⟩, ⟨.call "Main.run" 2, ⟨11, 26⟩⟩]

/-- The last temp cell may be the last cell that an instruction can load. -/
theorem high_fitting :
    ∃ lines, Project.read ⟨"."⟩ highSettings = .ok highProject ∧
      unitLines highProject.options.layout false "Main" keepingCommands = .ok lines ∧
      literalsOf lines = [32767, 7] ∧
      (∀ number, maxAddress < number →
        (number ∈ literalsOf (bootstrapLines highProject.options.layout false) ++ literalsOf lines ↔
          Unchecked highProject.options.layout keepingCommands number)) ∧
      Fitting highProject.options.layout keepingCommands := by
  have read : Project.read ⟨"."⟩ highSettings = .ok highProject := by rfl
  have front : literalsOf (bootstrapLines highProject.options.layout false) = [2048, 5] := by rfl
  obtain ⟨lines, made, loaded⟩ : ∃ lines,
      unitLines highProject.options.layout false "Main" keepingCommands = .ok lines ∧
        literalsOf lines = [32767, 7] := ⟨_, rfl, rfl⟩
  have fits := fitting_iff_of_read read made
  refine ⟨lines, read, made, loaded, fits.1, fits.2.mp ⟨?_, by decide⟩⟩
  rw [front, loaded]
  decide

/-- Settings that put the stack and the temp cells behind the last address. -/
def tightSettings : String :=
  "[project]\nname = \"tight\"\n[machine]\nstack_base = 32768\ntemp_base = 32768\n"

/-- Settings behind the last address are read, and a unit that uses a temp cell has lines. -/
theorem tight_not_fitting :
    ∃ project lines, Project.read ⟨"."⟩ tightSettings = .ok project ∧
      unitLines project.options.layout false "Main" [⟨.push .temp 0, ⟨0, 11⟩⟩] = .ok lines ∧
      32768 ∈ literalsOf (bootstrapLines project.options.layout false) ∧
      32768 ∈ literalsOf lines ∧ maxAddress < 32768 :=
  ⟨_, _, rfl, rfl, List.mem_cons_self, List.mem_cons_self, by decide⟩

end Lines

end JackToolchain
