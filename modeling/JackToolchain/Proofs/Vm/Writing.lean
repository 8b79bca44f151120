import JackToolchain.Proofs.Vm.Rendering
import JackToolchain.Proofs.Vm.Simulation

/-!
# Lines of a translation

The lines of a unit are the blocks of its commands, one after another and perhaps with comments in
between. With the standard memory map, an instruction of a block has an encoding whatever the names
of the program are, or it loads or places a symbol of the command.
-/
namespace JackToolchain.Vm

open Assembly (Commented Instruction Line codeOf encodeCompute? isField isSymbolChar maxAddress)

/-! ## Instructions of blocks -/

/-- Instructions that can be read back and encoded whatever the names of a program are. -/
def isPlain : Instruction → Bool
  | .address value => value ≤ maxAddress
  | .symbol name => ["SP", "LCL", "ARG", "THIS", "THAT", "R13", "R14"].contains name
  | .compute dest comp jump =>
    isField dest && isField comp && isField jump && comp ≠ "" &&
      (encodeCompute? dest comp jump).isSome
  | .label _ => false

/-- The symbols in the block of a command that are not names of the platform. -/
def Command.symbols (unit : String) (numbering : Numbering) : Command → List String
  | .operate _ => [numbering.comparisonSymbol]
  | .push .static index | .pop .static index => [staticSymbol unit index]
  | .label name | .goto name | .ifGoto name => [numbering.labelSymbol name]
  | .function name _ => [name]
  | .call name _ => [name, numbering.returnSymbol]
  | .push _ _ | .pop _ _ | .return => []

/-- Instructions that are plain or load or place one of some symbols. -/
def About (symbols : List String) (instruction : Instruction) : Prop :=
  isPlain instruction = true ∨
    ∃ name ∈ symbols, instruction = .symbol name ∨ instruction = .label name

section Blocks

variable {unit : String} {numbering : Numbering} {command : Command} {block : List Instruction}
variable {symbols : List String}

/-- A plain block is about nothing. -/
theorem about_of_all_isPlain (plain : block.all isPlain = true) :
    ∀ instruction ∈ block, About symbols instruction :=
  fun instruction member => .inl (List.all_eq_true.mp plain instruction member)

/-- A symbol is loaded, and the rest is about the symbols. -/
theorem about_symbol_cons {name : String} (own : name ∈ symbols)
    (rest : ∀ instruction ∈ block, About symbols instruction) :
    ∀ instruction ∈ .symbol name :: block, About symbols instruction :=
  List.forall_mem_cons.mpr ⟨.inr ⟨name, own, .inl rfl⟩, rest⟩

/-- A label is about its symbol. -/
theorem about_label {name : String} (own : name ∈ symbols) :
    ∀ instruction ∈ [.label name], About symbols instruction :=
  List.forall_mem_singleton.mpr (.inr ⟨name, own, .inr rfl⟩)

/-- The number of a location can be loaded, and its symbol is known. -/
def Location.Known (symbols : List String) : Location → Prop
  | .indirect _ value | .cell value | .constant value => value ≤ maxAddress
  | .named name => isPlain (.symbol name) = true ∨ name ∈ symbols

/-- Where an index lives is known. -/
private theorem known_of_locate? {segment : Segment} {index : Nat} {location : Location}
    (located : locate? {} unit segment index = some location) :
    location.Known ((Command.push segment index).symbols unit numbering) := by
  cases livesAt_of_locate? located with
  | constant small => exact small
  | above base small => exact small
  | static index => exact .inr List.mem_cons_self
  | this => exact .inl (by decide)
  | that => exact .inl (by decide)
  | temp inside =>
    have small : index < 8 := inside
    have limit : maxAddress = 32767 := rfl
    exact Nat.le_trans (Nat.mod_le _ _) (by
      change 5 + index ≤ maxAddress
      omega)

/-- A number that can be loaded stands in front of plain instructions. -/
private theorem about_address_cons {value : Nat} (small : value ≤ maxAddress)
    (plain : block.all isPlain = true) :
    ∀ instruction ∈ .address value :: block, About symbols instruction :=
  List.forall_mem_cons.mpr ⟨.inl (decide_eq_true small), about_of_all_isPlain plain⟩

/-- A known symbol stands in front of plain instructions. -/
private theorem about_named_cons {name : String}
    (known : isPlain (.symbol name) = true ∨ name ∈ symbols) (plain : block.all isPlain = true) :
    ∀ instruction ∈ .symbol name :: block, About symbols instruction := by
  refine List.forall_mem_cons.mpr ⟨?_, about_of_all_isPlain plain⟩
  rcases known with platform | own
  · exact .inl platform
  · exact .inr ⟨name, own, .inl rfl⟩

/-- The instructions of a push. -/
private theorem about_push {location : Location} (known : location.Known symbols) :
    ∀ instruction ∈ location.push, About symbols instruction := by
  cases location with
  | constant value => exact about_address_cons known (by decide)
  | cell address => exact about_address_cons known (by decide)
  | named name => exact about_named_cons known (by decide)
  | indirect base offset => cases base <;> exact about_address_cons known (by decide)

/-- The instructions of a pop. -/
private theorem about_pop {location : Location} (known : location.Known symbols)
    (popped : location.pop? {} = some block) :
    ∀ instruction ∈ block, About symbols instruction := by
  have front : ∀ instruction ∈ popD, About symbols instruction :=
    about_of_all_isPlain (by decide)
  cases location with
  | constant value => contradiction
  | cell address =>
    obtain rfl := Option.some.inj popped
    exact List.forall_mem_append.mpr ⟨front, about_address_cons known (by decide)⟩
  | named name =>
    obtain rfl := Option.some.inj popped
    exact List.forall_mem_append.mpr ⟨front, about_named_cons known (by decide)⟩
  | indirect base offset =>
    obtain rfl := Option.some.inj popped
    cases base <;> exact about_address_cons known (by decide)

/-- The instructions of an operation. -/
private theorem about_operate {done : String} (own : done ∈ symbols) (operation : Operation) :
    ∀ instruction ∈ operation.block done, About symbols instruction := by
  have comparison {condition : String} (plain : isPlain (.jump "D" condition) = true) :
      ∀ instruction ∈ comparisonBlock condition done, About symbols instruction := by
    have split : comparisonBlock condition done =
        (popD ++ [Instruction.store "A" "A-1", .store "D" "M-D", .store "M" "-1"]) ++
          (Instruction.symbol done :: .jump "D" condition ::
            ([Instruction.symbol "SP", .store "A" "M-1", .store "M" "0"] ++
              [Instruction.label done])) := rfl
    rw [split]
    refine List.forall_mem_append.mpr ⟨about_of_all_isPlain (by decide), ?_⟩
    refine about_symbol_cons own (List.forall_mem_cons.mpr ⟨.inl plain, ?_⟩)
    exact List.forall_mem_append.mpr ⟨about_of_all_isPlain (by decide), about_label own⟩
  cases operation with
  | eq => exact comparison (by decide)
  | gt => exact comparison (by decide)
  | lt => exact comparison (by decide)
  | _ => exact about_of_all_isPlain rfl

/-- The instructions of a call. -/
theorem about_callBlock {name back : String} {args : Nat} (small : frameSize + args ≤ maxAddress)
    (nameOwn : name ∈ symbols) (backOwn : back ∈ symbols) :
    ∀ instruction ∈ callBlock name args back, About symbols instruction := by
  have split : callBlock name args back =
      .symbol back :: (((callBlock name args back).drop 1).take 36 ++
        (Instruction.address (frameSize + args) :: [.store "D" "D-A", .symbol "ARG", .store "M" "D",
          .symbol "SP", .store "D" "M", .symbol "LCL", .store "M" "D"] ++
        (Instruction.symbol name :: .jump "0" "JMP" :: [.label back]))) := rfl
  rw [split]
  refine about_symbol_cons backOwn (List.forall_mem_append.mpr ⟨about_of_all_isPlain rfl, ?_⟩)
  refine List.forall_mem_append.mpr ⟨about_address_cons small (by decide), ?_⟩
  refine about_symbol_cons nameOwn (List.forall_mem_cons.mpr ⟨.inl (by decide), ?_⟩)
  exact about_label backOwn

/-- The instructions of a command are plain or about its symbols. -/
theorem about_of_instructions (made : command.instructions {} unit numbering = .ok block) :
    ∀ instruction ∈ block, About (command.symbols unit numbering) instruction := by
  cases lowers_of_instructions made with
  | operate operation => exact about_operate List.mem_cons_self operation
  | push located => exact about_push (known_of_locate? located)
  | @pop segment index location block located popped =>
    have known : location.Known ((Command.push segment index).symbols unit numbering) :=
      known_of_locate? located
    cases segment <;> exact about_pop known popped
  | label name => exact about_label List.mem_cons_self
  | goto name => exact about_symbol_cons List.mem_cons_self (about_of_all_isPlain (by decide))
  | ifGoto name =>
    refine List.forall_mem_append.mpr ⟨about_of_all_isPlain (by decide), ?_⟩
    exact about_symbol_cons List.mem_cons_self (about_of_all_isPlain (by decide))
  | function name inRange =>
    intro instruction member
    rcases mem_functionBlock member with rfl | zero
    · exact about_label List.mem_cons_self _ List.mem_cons_self
    · exact about_of_all_isPlain (by decide) instruction zero
  | @call name args inRange =>
    have small : frameSize + args ≤ maxAddress := by
      change args ≤ 32762 at inRange
      change 5 + args ≤ 32767
      omega
    exact about_callBlock small List.mem_cons_self (List.mem_cons_of_mem _ List.mem_cons_self)
  | «return» => exact about_of_all_isPlain (by decide)

/-- What holds of static symbols, of the symbols of labels in a scope and of names, holds of the
symbols of a well-spelled command. -/
theorem forall_symbols {p : String → Prop} (spelled : command.Spelled)
    (static : ∀ index, p (staticSymbol unit index))
    (label : ∀ name, name.toList.all isSymbolChar = true → p (numbering.labelSymbol name))
    (named : ∀ name, isName name.toList = true → p name) :
    ∀ name ∈ command.symbols unit numbering, p name := by
  have own {name : String} (isName : isName name.toList = true) : p (numbering.labelSymbol name) :=
    label name (all_isSymbolChar (all_isNameChar_of_isName isName).2.1)
  have generated {stem : String} (stemOwn : stem.toList.all isSymbolChar = true) (number : Nat) :
      p (numbering.labelSymbol (stem ++ number.repr)) := by
    refine label _ ?_
    rw [String.toList_append, List.all_append, stemOwn,
      all_isSymbolChar (all_isNameChar_repr number).2]
    rfl
  cases command with
  | operate operation => exact List.forall_mem_singleton.mpr (generated (by decide) _)
  | push segment index =>
    cases segment with
    | static => exact List.forall_mem_singleton.mpr (static index)
    | _ => exact fun name member => by contradiction
  | pop segment index =>
    cases segment with
    | static => exact List.forall_mem_singleton.mpr (static index)
    | _ => exact fun name member => by contradiction
  | label name => exact List.forall_mem_singleton.mpr (own spelled)
  | goto name => exact List.forall_mem_singleton.mpr (own spelled)
  | ifGoto name => exact List.forall_mem_singleton.mpr (own spelled)
  | function name locals => exact List.forall_mem_singleton.mpr (named name spelled.1)
  | call name args =>
    exact List.forall_mem_cons.mpr ⟨named name spelled.1,
      List.forall_mem_singleton.mpr (generated (by decide) _)⟩
  | «return» => exact fun name member => by contradiction

end Blocks

/-! ## Lines of units -/

section Lines

variable {layout : Layout} {unit : String} {numbering : Numbering} {command : Command}
variable {block : List Instruction} {comments : Bool}

/-- The instructions among the lines of a block are those of the block. -/
theorem codeOf_blockLines (comment : String) :
    codeOf (blockLines comments comment block) = block := by
  have code : codeOf (block.map .code) = block := by
    rw [codeOf, List.filterMap_map]
    exact List.filterMap_some
  cases comments with
  | false => exact code
  | true => exact code

/-- The lines of a block are commented by a comment on one line. -/
theorem commented_blockLines {comment : String} (whole : '\n' ∉ comment.toList) :
    Commented (blockLines comments comment block) := by
  intro text member
  rcases List.mem_append.mp member with isComment | isCode
  · cases comments with
    | false => contradiction
    | true =>
      obtain rfl := Line.comment.inj (List.mem_singleton.mp isComment)
      exact whole
  · obtain ⟨instruction, _, isComment⟩ := List.mem_map.mp isCode
    contradiction

/-- The blocks of well-spelled commands are commented. -/
theorem commented_of_blocksInto {done result : List (List Line)}
    {commands : List (Spanned Command)}
    (made : blocksInto layout comments unit done numbering commands = .ok result)
    (spelled : ∀ command ∈ commands, command.node.Spelled)
    (before : ∀ lines ∈ done, Commented lines) : ∀ lines ∈ result, Commented lines := by
  induction commands generalizing done numbering with
  | nil =>
    obtain rfl := Except.ok.inj made
    exact fun lines member => before lines (List.mem_reverse.mp member)
  | cons command rest ih =>
    obtain ⟨own, later⟩ := List.forall_mem_cons.mp spelled
    rw [blocksInto] at made
    split at made
    · refine ih made later (List.forall_mem_cons.mpr ⟨?_, before⟩)
      exact commented_blockLines (whole_text own)
    · contradiction

/-- The blocks of commands are those of their places. -/
theorem sites_of_blocksInto {done result : List (List Line)} {commands : List (Spanned Command)}
    (made : blocksInto layout comments unit done numbering commands = .ok result) (region : Nat) :
    ∃ lines, result = done.reverse ++ lines ∧
      List.Forall₂ (fun site block =>
          site.command.instructions layout site.unit site.numbering = .ok block)
        (unitSites unit region numbering (commands.map fun command => command.node))
        (lines.map codeOf) := by
  induction commands generalizing done numbering region with
  | nil =>
    obtain rfl := Except.ok.inj made
    exact ⟨[], (List.append_nil _).symm, .nil⟩
  | cons command rest ih =>
    obtain ⟨command, span⟩ := command
    rw [blocksInto] at made
    split at made
    · rename_i block instructions
      obtain ⟨lines, rfl, matched⟩ := ih made (if command.isEntry then region + 1 else region)
      refine ⟨blockLines comments command.text block :: lines, ?_, ?_⟩
      · rw [List.reverse_cons, List.append_assoc, List.singleton_append]
      · have own : codeOf (blockLines comments command.text block) = block :=
          codeOf_blockLines command.text
        exact .cons (own.symm ▸ instructions) matched
    · contradiction

end Lines

end JackToolchain.Vm
