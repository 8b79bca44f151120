import JackToolchain.Proofs.Vm.Parts

/-!
# Numbers in blocks

The numbers that the lines of a unit load, as they are written: what follows an `@` and is a
numeral, whether the instruction holds a number or a symbol that looks like one. They are known from
the commands. A command in range loads no number above the largest one that it may load, with two
exceptions: the address of a temp cell, which is a sum that nobody looks at, and a called function
whose name is a numeral.
-/
namespace JackToolchain

namespace Assembly

/-- The number that a name looks like. -/
def numeral? (name : String) : Option Nat := Text.readDecimal? name.toList

/-- The number that an instruction loads as it is written. -/
def Instruction.number? : Instruction → Option Nat
  | .address value => some value
  | .symbol name => numeral? name
  | .compute _ _ _ | .label _ => none

/-- The number on a line that consists of an `@` and a numeral. -/
def Line.literal? (line : Line) : Option Nat :=
  match line.text.toList with
  | '@' :: rest => Text.readDecimal? rest
  | _ => none

/-- The numbers that instructions load as they are written, in order. -/
def numbersOf (code : List Instruction) : List Nat := code.filterMap Instruction.number?

/-- The numbers on lines that consist of an `@` and a numeral, in order. -/
def literalsOf (lines : List Line) : List Nat := lines.filterMap Line.literal?

section Numbers

variable {instruction : Instruction} {lines : List Line} {name : String}

/-- A name with a character that is no digit looks like no number. -/
theorem numeral?_eq_none {c : Char} (member : c ∈ name.toList) (noDigit : c.isDigit = false) :
    numeral? name = none := by
  refine if_neg fun digits => ?_
  have own := List.all_eq_true.mp digits.2 c member
  rw [noDigit] at own
  contradiction

section Cons

variable (code : List Instruction)

/-- Nothing loads no number. -/
@[simp] theorem numbersOf_nil : numbersOf [] = [] := rfl

/-- A number is loaded as it is. -/
@[simp] theorem numbersOf_address_cons (value : Nat) :
    numbersOf (.address value :: code) = value :: numbersOf code := rfl

/-- A symbol is loaded as the number that it looks like. -/
@[simp] theorem numbersOf_symbol_cons (name : String) :
    numbersOf (.symbol name :: code) = (numeral? name).toList ++ numbersOf code := by
  unfold numbersOf
  cases looks : numeral? name with
  | none => exact List.filterMap_cons_none looks
  | some value => exact List.filterMap_cons_some looks

/-- A computation loads no number. -/
@[simp] theorem numbersOf_compute_cons (dest comp jump : String) :
    numbersOf (.compute dest comp jump :: code) = numbersOf code := rfl

/-- A label loads no number. -/
@[simp] theorem numbersOf_label_cons (name : String) :
    numbersOf (.label name :: code) = numbersOf code := rfl

end Cons

/-- Numbers of consecutive instructions. -/
theorem numbersOf_append (front back : List Instruction) :
    numbersOf (front ++ back) = numbersOf front ++ numbersOf back := List.filterMap_append

/-- Numbers of blocks. -/
theorem numbersOf_flatten (blocks : List (List Instruction)) :
    numbersOf blocks.flatten = blocks.flatMap numbersOf := by
  rw [numbersOf, List.filterMap_flatten]
  rfl

/-- The number on the line of an instruction is the one that it loads. -/
theorem literal?_code (fields : Vm.hasFields instruction = true) :
    (Line.code instruction).literal? = instruction.number? := by
  unfold Line.literal?
  rw [Line.text]
  cases instruction with
  | address value =>
    rw [toList_text_address]
    exact Text.readDecimal?_toDigits value
  | symbol name =>
    rw [toList_text_symbol]
    rfl
  | label name =>
    rw [toList_text_label]
    rfl
  | compute dest comp jump =>
    simp only [Vm.hasFields, Bool.and_eq_true, decide_eq_true_eq] at fields
    have readable : (Instruction.compute dest comp jump).Readable :=
      ⟨fields.1.1.1, fields.1.1.2, fields.1.2, fields.2⟩
    split
    · rename_i rest text
      have first : '@' ∈ (Instruction.compute dest comp jump).text.toList :=
        text ▸ List.mem_cons_self
      exact absurd rfl (compute_char readable first).2.2.1
    · rfl

/-- There is no number on the line of a comment. -/
theorem literal?_comment (text : String) : (Line.comment text).literal? = none := by
  unfold Line.literal?
  rw [Line.text, String.toList_append]
  rfl

/-- The numbers on lines are those that their instructions load. -/
theorem literalsOf_eq (fields : (codeOf lines).all Vm.hasFields = true) :
    literalsOf lines = numbersOf (codeOf lines) := by
  induction lines with
  | nil => rfl
  | cons line rest ih =>
    cases line with
    | comment text =>
      rw [literalsOf, List.filterMap_cons, literal?_comment]
      exact ih fields
    | code instruction =>
      have own : codeOf (.code instruction :: rest) = instruction :: codeOf rest := rfl
      rw [own, List.all_cons, Bool.and_eq_true] at fields
      rw [own, literalsOf, numbersOf, List.filterMap_cons, List.filterMap_cons,
        literal?_code fields.1]
      rw [literalsOf, numbersOf] at ih
      rw [ih fields.2]

end Numbers

end Assembly

namespace Vm

open Assembly (Instruction Line codeOf literalsOf maxAddress numbersOf numbersOf_append numeral?
  numeral?_eq_none)

/-! ## Numbers of commands -/

/-- The number that the blocks for an index of a segment load. -/
def Segment.number? (layout : Layout) (index : Nat) : Segment → Option Nat
  | .local | .argument | .this | .that | .constant => some index
  | .temp => some (layout.tempCell index)
  | .static | .pointer => none

/-- The numbers that the block of a command loads, in order. -/
def Command.numbers (layout : Layout) : Command → List Nat
  | .push segment index | .pop segment index => (segment.number? layout index).toList
  | .call name args => (frameSize + args) :: (numeral? name).toList
  | .return => [frameSize]
  | .operate _ | .label _ | .goto _ | .ifGoto _ | .function _ _ => []

/-- The number that the blocks for a location load. -/
def Location.number? : Location → Option Nat
  | .indirect _ value | .cell value | .constant value => some value
  | .named name => numeral? name

section Blocks

variable {layout : Layout} {unit : String} {numbering : Numbering} {command : Command}
variable {block : List Instruction} {segment : Segment} {index : Nat} {location : Location}

/-- The symbol of a label looks like no number. -/
theorem numeral?_labelSymbol (numbering : Numbering) (name : String) :
    numeral? (numbering.labelSymbol name) = none := by
  refine numeral?_eq_none (c := '$') ?_ rfl
  simp [Numbering.labelSymbol]

/-- The number of a location is that of its index. -/
theorem number?_of_locate? (located : locate? layout unit segment index = some location) :
    location.number? = segment.number? layout index := by
  cases livesAt_of_locate? located with
  | above base small => cases base <;> rfl
  | static index =>
    refine numeral?_eq_none (c := '.') ?_ rfl
    simp [staticSymbol]
  | _ => rfl

/-- A push loads the number of its location. -/
theorem numbersOf_push (location : Location) :
    numbersOf location.push = location.number?.toList := by
  have pushed : numbersOf pushD = [] := rfl
  cases location with
  | indirect base offset => cases base <;> rfl
  | named name => simp [Location.push, Location.number?, Instruction.store, pushed]
  | _ => rfl

/-- A pop loads the number of its location. -/
theorem numbersOf_pop (cells : ∀ name ∈ layout.cellNames, numeral? name = none)
    (popped : location.pop? layout = some block) :
    numbersOf block = location.number?.toList := by
  have top : numbersOf popD = [] := rfl
  cases location with
  | constant value => contradiction
  | cell address =>
    obtain rfl := Option.some.inj popped
    rfl
  | named name =>
    obtain rfl := Option.some.inj popped
    simp [Location.number?, Instruction.store, numbersOf_append, top]
  | indirect base offset =>
    obtain rfl := Option.some.inj popped
    have pointer : numeral? base.symbol = none := by cases base <;> rfl
    have frame : numeral? layout.frameRegister = none := cells _ (by simp [Layout.cellNames])
    simp [Location.number?, Instruction.store, numbersOf_append, top, pointer, frame]

/-- An operation loads no number. -/
theorem numbersOf_operate {done : String} (wordy : numeral? done = none) (operation : Operation) :
    numbersOf (operation.block done) = [] := by
  have comparison (condition : String) : numbersOf (comparisonBlock condition done) = [] := by
    have top : numbersOf popD = [] := rfl
    have stack : numeral? "SP" = none := rfl
    simp [comparisonBlock, Instruction.store, Instruction.jump, numbersOf_append, top, wordy, stack]
  cases operation with
  | eq => exact comparison "JEQ"
  | gt => exact comparison "JGT"
  | lt => exact comparison "JLT"
  | _ => rfl

/-- A return loads the size of a frame. -/
theorem numbersOf_returnBlock (cells : ∀ name ∈ layout.cellNames, numeral? name = none) :
    numbersOf (returnBlock layout) = [frameSize] := by
  have top : numbersOf popD = [] := rfl
  have frame : numeral? layout.frameRegister = none := cells _ (by simp [Layout.cellNames])
  have address : numeral? layout.returnRegister = none := cells _ (by simp [Layout.cellNames])
  have stack : ∀ name ∈ ["SP", "LCL", "ARG", "THIS", "THAT"], numeral? name = none := by decide
  simp only [List.forall_mem_cons] at stack
  simp [returnBlock, restoreBlock, savedPointers, Pointer.symbol, Instruction.store,
    Instruction.jump, numbersOf_append, top, frame, address, stack]

/-- A call loads the size of its frame and arguments. -/
theorem numbersOf_callBlock {back : String} (name : String) (args : Nat)
    (wordy : numeral? back = none) :
    numbersOf (callBlock name args back) = (frameSize + args) :: (numeral? name).toList := by
  have saved : numbersOf
      (savedPointers.flatMap fun pointer => [.symbol pointer.symbol, .store "D" "M"] ++ pushD) =
        [] := rfl
  have pushed : numbersOf pushD = [] := rfl
  have platform : ∀ name ∈ ["SP", "LCL", "ARG"], numeral? name = none := by decide
  simp only [List.forall_mem_cons] at platform
  rw [callBlock]
  simp only [numbersOf_append, saved, pushed]
  simp [Instruction.store, Instruction.jump, wordy, platform]

/-- The numbers that the instructions of a command load are known from the command, if the cells of
blocks look like no numbers. -/
theorem numbersOf_instructions (made : command.instructions layout unit numbering = .ok block)
    (cells : ∀ name ∈ layout.cellNames, numeral? name = none) :
    numbersOf block = command.numbers layout := by
  cases lowers_of_instructions made with
  | operate operation => exact numbersOf_operate (numeral?_labelSymbol numbering _) operation
  | push located =>
    rw [numbersOf_push, number?_of_locate? located]
    rfl
  | pop located popped =>
    rw [numbersOf_pop cells popped, number?_of_locate? located]
    rfl
  | label name => rfl
  | goto name => simp [gotoBlock, Instruction.jump, numeral?_labelSymbol, Command.numbers]
  | ifGoto name =>
    have top : numbersOf popD = [] := rfl
    simp [ifGotoBlock, Instruction.jump, numbersOf_append, top, numeral?_labelSymbol,
      Command.numbers]
  | function name inRange =>
    have zero : numbersOf pushZero = [] := rfl
    rw [functionBlock, Assembly.numbersOf_label_cons, Assembly.numbersOf_flatten]
    refine List.flatMap_eq_nil_iff.mpr fun copy member => ?_
    rw [List.eq_of_mem_replicate member]
    exact zero
  | @call name args inRange => exact numbersOf_callBlock name args (numeral?_labelSymbol numbering _)
  | «return» => exact numbersOf_returnBlock cells

/-- A command that reads or writes a temp cell. -/
def Command.UsesTemp (index : Nat) (command : Command) : Prop :=
  command = .push .temp index ∨ command = .pop .temp index

/-- A command that uses a temp cell loads its address. -/
theorem Command.UsesTemp.numbers_eq (uses : command.UsesTemp index) :
    command.numbers layout = [layout.tempCell index] := by
  rcases uses with rfl | rfl <;> rfl

/-- A number of a command in range is no larger than the largest constant, or it is the address of
a temp cell or the name of a called function. -/
theorem of_mem_numbers {number : Nat} (framed : frameSize ≤ layout.maxConstant)
    (inRange : command.InRange layout) (member : number ∈ command.numbers layout) :
    number ≤ layout.maxConstant ∨
      (∃ index, command.UsesTemp index ∧ layout.tempCell index = number) ∨
      ∃ name args, command = .call name args ∧ numeral? name = some number := by
  cases command with
  | push segment index =>
    have loaded := Option.mem_toList.mp member
    cases segment with
    | static => contradiction
    | pointer => contradiction
    | temp => exact .inr (.inl ⟨index, .inl rfl, Option.some.inj loaded⟩)
    | _ => exact .inl (Option.some.inj loaded ▸ inRange)
  | pop segment index =>
    have loaded := Option.mem_toList.mp member
    cases segment with
    | static => contradiction
    | pointer => contradiction
    | temp => exact .inr (.inl ⟨index, .inr rfl, Option.some.inj loaded⟩)
    | _ => exact .inl (Option.some.inj loaded ▸ inRange.2)
  | call name args =>
    rcases List.mem_cons.mp member with rfl | named
    · have few : args ≤ layout.maxConstant - frameSize := inRange
      exact .inl (by omega)
    · exact .inr (.inr ⟨name, args, rfl, Option.mem_toList.mp named⟩)
  | «return» => exact .inl (List.mem_singleton.mp member ▸ framed)
  | _ => contradiction

end Blocks

/-! ## Numbers of units -/

section Lines

variable {layout : Layout} {unit : String} {comments : Bool} {commands : List (Spanned Command)}
variable {lines : List Line}

/-- The places of a unit are those of its commands. -/
theorem command_unitSites (unit : String) (region : Nat) (numbering : Numbering)
    (commands : List Command) :
    (unitSites unit region numbering commands).map (fun site => site.command) = commands := by
  induction commands generalizing region numbering with
  | nil => rfl
  | cons command rest ih => rw [unitSites, List.map_cons, ih]

/-- The instructions of a unit with lines are blocks of its commands. -/
theorem blocks_of_unitLines (made : unitLines layout comments unit commands = .ok lines) :
    ∃ blocks, List.Forall₂ (fun command block =>
        ∃ owner numbering, command.instructions layout owner numbering = .ok block)
      (commands.map fun command => command.node) blocks ∧ codeOf lines = blocks.flatten := by
  obtain ⟨written, blocksMade, flattened⟩ := bind_eq_ok.mp made
  obtain rfl := Except.ok.inj flattened
  obtain ⟨own, same, matched⟩ := sites_of_blocksInto blocksMade 0
  refine ⟨own.map codeOf, ?_, same ▸ Assembly.codeOf_flatten own⟩
  rw [← command_unitSites unit 0 { scope := unit } (commands.map fun command => command.node),
    List.forall₂_map_left_iff]
  exact matched.imp fun site block own => ⟨site.unit, site.numbering, own⟩

/-- The commands of a unit with lines are in range. -/
theorem inRange_of_unitLines (made : unitLines layout comments unit commands = .ok lines) :
    ∀ command ∈ commands, command.node.InRange layout := by
  obtain ⟨blocks, matched, -⟩ := blocks_of_unitLines made
  intro command member
  obtain ⟨block, -, owner, numbering, own⟩ :=
    exists_mem_right matched (List.mem_map_of_mem member)
  exact exists_instructions_iff.mp ⟨block, own⟩

/-- The numbers that blocks load are those of their commands, if the cells of blocks look like no
numbers. -/
theorem numbersOf_blocks {commands : List Command} {blocks : List (List Instruction)}
    (matched : List.Forall₂ (fun command block =>
      ∃ owner numbering, command.instructions layout owner numbering = .ok block) commands blocks)
    (cells : ∀ name ∈ layout.cellNames, numeral? name = none) :
    numbersOf blocks.flatten = commands.flatMap (Command.numbers layout) := by
  induction matched with
  | nil => rfl
  | cons own _ ih =>
    obtain ⟨owner, numbering, block⟩ := own
    rw [List.flatten_cons, numbersOf_append, List.flatMap_cons, ih,
      numbersOf_instructions block cells]

/-- The numbers on the lines of a unit are those of its commands, if the cells of blocks look like
no numbers. -/
theorem literalsOf_unitLines (made : unitLines layout comments unit commands = .ok lines)
    (cells : ∀ name ∈ layout.cellNames, numeral? name = none) :
    literalsOf lines = commands.flatMap fun command => command.node.numbers layout := by
  obtain ⟨blocks, matched, code⟩ := blocks_of_unitLines made
  have fields : (codeOf lines).all hasFields = true := by
    rw [code, List.all_flatten, List.all_eq_true]
    intro block member
    obtain ⟨command, -, owner, numbering, own⟩ := exists_mem_left matched member
    exact hasFields_of_instructions own
  rw [Assembly.literalsOf_eq fields, code, numbersOf_blocks matched cells, List.flatMap_map]

end Lines

end Vm

end JackToolchain
