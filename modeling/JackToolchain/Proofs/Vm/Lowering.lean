import JackToolchain.Proofs.Assembly.Legality
import JackToolchain.Proofs.Vm.Landmarks

/-!
# Accepted commands

A command has instructions exactly if its numbers are in range. The instructions of a well-spelled
command can be read and encoded, at most every other one of them loads a symbol, and the cell of
a static variable is loaded by its symbol.
-/
namespace JackToolchain.Vm

open Assembly (Instruction Line isSymbol symbolsOf)
open Machine (size)

/-! ## Commands in range -/

/-- Whether a segment has an index. -/
def Segment.Holds (layout : Layout) (index : Nat) : Segment → Prop
  | .local | .argument | .this | .that | .constant => index ≤ layout.maxConstant
  | .static => True
  | .temp => index < layout.tempSize
  | .pointer => index ≤ 1

/-- Whether the index or the count of a command is in range; a constant is nothing to pop into. -/
def Command.InRange (layout : Layout) : Command → Prop
  | .push segment index => segment.Holds layout index
  | .pop segment index => segment ≠ .constant ∧ segment.Holds layout index
  | .function _ locals => locals ≤ layout.maxConstant
  | .call _ args => args ≤ layout.maxConstant - frameSize
  | .operate _ | .label _ | .goto _ | .ifGoto _ | .return => True

instance (layout : Layout) (index : Nat) (segment : Segment) :
    Decidable (segment.Holds layout index) := by
  cases segment <;> unfold Segment.Holds <;> infer_instance

instance (layout : Layout) (command : Command) : Decidable (command.InRange layout) :=
  match command with
  | .push segment index => inferInstanceAs (Decidable (segment.Holds layout index))
  | .pop segment index =>
    inferInstanceAs (Decidable (segment ≠ .constant ∧ segment.Holds layout index))
  | .function _ locals => inferInstanceAs (Decidable (locals ≤ layout.maxConstant))
  | .call _ args => inferInstanceAs (Decidable (args ≤ layout.maxConstant - frameSize))
  | .operate _ | .label _ | .goto _ | .ifGoto _ | .return => .isTrue trivial

section Ranges

variable {layout : Layout} {unit : String} {numbering : Numbering} {command : Command}
variable {segment : Segment} {index : Nat}

/-- An index lives somewhere exactly if the segment has it. -/
theorem isSome_locate? :
    (locate? layout unit segment index).isSome = true ↔ segment.Holds layout index := by
  cases segment with
  | static => exact iff_of_true rfl trivial
  | pointer =>
    match index with
    | 0 => exact iff_of_true rfl (Nat.zero_le 1)
    | 1 => exact iff_of_true rfl (Nat.le_refl 1)
    | index + 2 =>
      refine iff_of_false Bool.false_ne_true fun small => ?_
      have bound : index + 2 ≤ 1 := small
      omega
  | temp =>
    simp only [locate?, Segment.Holds]
    split <;> simp [*]
  | _ =>
    simp only [locate?, Segment.Holds]
    split <;> simp [*]

/-- A word is popped into every place but a constant. -/
theorem isSome_pop? {location : Location}
    (located : locate? layout unit segment index = some location) :
    (location.pop? layout).isSome = true ↔ segment ≠ .constant := by
  cases livesAt_of_locate? located with
  | constant small => exact iff_of_false Bool.false_ne_true (by simp)
  | above base small => exact iff_of_true rfl (by cases base <;> simp [Pointer.segment])
  | _ => exact iff_of_true rfl (by simp)

/-- A command has instructions if and only if it is in range. -/
theorem exists_instructions_iff :
    (∃ block, command.instructions layout unit numbering = .ok block) ↔
      command.InRange layout := by
  constructor
  · rintro ⟨block, made⟩
    cases lowers_of_instructions made with
    | push located => exact isSome_locate?.mp (Option.isSome_of_eq_some located)
    | pop located popped =>
      exact ⟨(isSome_pop? located).mp (Option.isSome_of_eq_some popped),
        isSome_locate?.mp (Option.isSome_of_eq_some located)⟩
    | function name inRange => exact inRange
    | call name inRange => exact inRange
    | _ => trivial
  · intro inRange
    cases command with
    | push segment index =>
      obtain ⟨location, located⟩ :=
        Option.isSome_iff_exists.mp ((@isSome_locate? layout unit _ _).mpr inRange)
      exact ⟨_, (Lowers.push located).instructions⟩
    | pop segment index =>
      obtain ⟨location, located⟩ :=
        Option.isSome_iff_exists.mp ((@isSome_locate? layout unit _ _).mpr inRange.2)
      obtain ⟨block, popped⟩ := Option.isSome_iff_exists.mp ((isSome_pop? located).mpr inRange.1)
      exact ⟨block, (Lowers.pop located popped).instructions⟩
    | function name locals => exact ⟨_, (Lowers.function name inRange).instructions⟩
    | call name args => exact ⟨_, (Lowers.call name inRange).instructions⟩
    | _ => exact ⟨_, rfl⟩

/-- Commands in range have blocks. -/
theorem exists_blocksInto {comments : Bool} {commands : List (Spanned Command)}
    (inRange : ∀ command ∈ commands, command.node.InRange layout) (done : List (List Line))
    (numbering : Numbering) :
    ∃ blocks, blocksInto layout comments unit done numbering commands = .ok blocks := by
  induction commands generalizing done numbering with
  | nil => exact ⟨_, rfl⟩
  | cons command rest ih =>
    obtain ⟨command, span⟩ := command
    obtain ⟨block, made⟩ := exists_instructions_iff.mpr (inRange _ List.mem_cons_self)
    rw [blocksInto, made]
    exact ih (fun other member => inRange other (List.mem_cons_of_mem _ member)) _ _

/-- A unit of commands in range has lines. -/
theorem exists_unitLines {comments : Bool} {commands : List (Spanned Command)}
    (inRange : ∀ command ∈ commands, command.node.InRange layout) :
    ∃ lines, unitLines layout comments unit commands = .ok lines := by
  obtain ⟨blocks, made⟩ := exists_blocksInto inRange [] { scope := unit }
  exact ⟨_, bind_eq_ok.mpr ⟨blocks, made, rfl⟩⟩

end Ranges

/-! ## Instructions of commands -/

section Instructions

variable {unit : String} {numbering : Numbering} {command : Command} {block : List Instruction}
variable {segment : Segment} {index : Nat}

/-- Plain instructions are legal and have words. -/
theorem legal_of_isPlain {instruction : Instruction} (plain : isPlain instruction = true) :
    instruction.Legal ∧ instruction.isEncodable = true := by
  cases instruction with
  | address value =>
    have small : value ≤ Assembly.maxAddress := of_decide_eq_true plain
    exact ⟨small, rfl⟩
  | symbol name =>
    have all : ∀ name ∈ ["SP", "LCL", "ARG", "THIS", "THAT", "R13", "R14"],
        isSymbol name.toList = true := by decide
    exact ⟨all name (List.contains_iff_mem.mp plain), rfl⟩
  | compute dest comp jump =>
    simp only [isPlain, Bool.and_eq_true, decide_eq_true_eq] at plain
    exact ⟨⟨plain.1.1.1.1, plain.1.1.1.2, plain.1.1.2, plain.1.2⟩, plain.2⟩
  | label name => contradiction

/-- The instructions of a well-spelled command are legal and have words. -/
theorem legal_of_instructions (made : command.instructions {} unit numbering = .ok block)
    (unitSymbol : isSymbol unit.toList = true)
    (scopeSymbol : isSymbol numbering.scope.toList = true) (spelled : command.Spelled) :
    ∀ instruction ∈ block, instruction.Legal ∧ instruction.isEncodable = true := by
  have symbols : ∀ name ∈ command.symbols unit numbering, isSymbol name.toList = true :=
    forall_symbols spelled (fun index => isSymbol_staticSymbol unitSymbol index)
      (fun name own => isSymbol_labelSymbol scopeSymbol own) fun name named =>
        isSymbol_of_isName named
  intro instruction member
  rcases about_of_instructions made instruction member with plain | ⟨name, own, rfl | rfl⟩
  · exact legal_of_isPlain plain
  · exact ⟨symbols name own, rfl⟩
  · exact ⟨symbols name own, rfl⟩

/-- At most every other instruction loads a symbol. -/
def Sparse (code : List Instruction) : Prop := 2 * (symbolsOf code).length ≤ size code

/-- Consecutive sparse instructions are sparse. -/
theorem Sparse.append {front back : List Instruction} (first : Sparse front)
    (second : Sparse back) : Sparse (front ++ back) := by
  unfold Sparse symbolsOf at *
  rw [List.filterMap_append, List.length_append, Machine.size_append]
  omega

/-- Sparse blocks are sparse. -/
theorem sparse_flatten {blocks : List (List Instruction)}
    (each : ∀ block ∈ blocks, Sparse block) : Sparse blocks.flatten := by
  induction blocks with
  | nil => exact Nat.le_refl 0
  | cons block rest ih =>
    rw [List.flatten_cons]
    exact (each block List.mem_cons_self).append
      (ih fun other member => each other (List.mem_cons_of_mem _ member))

/-- The instructions of a command are sparse. -/
theorem sparse_of_instructions (made : command.instructions layout unit numbering = .ok block) :
    Sparse block := by
  cases lowers_of_instructions made with
  | operate operation => cases operation <;> exact Nat.le_of_ble_eq_true rfl
  | @push segment index location located => cases location <;> exact Nat.le_of_ble_eq_true rfl
  | @pop segment index location block located popped =>
    cases location with
    | constant value => contradiction
    | _ =>
      obtain rfl := Option.some.inj popped
      exact Nat.le_of_ble_eq_true rfl
  | function name inRange =>
    have start : Sparse [.label name] := Nat.le_refl 0
    refine start.append (sparse_flatten fun zero copy => ?_)
    obtain rfl := List.eq_of_mem_replicate copy
    exact Nat.le_of_ble_eq_true rfl
  | _ => exact Nat.le_of_ble_eq_true rfl

/-- A command that reads or writes a static variable. -/
def Command.UsesStatic (index : Nat) (command : Command) : Prop :=
  command = .push .static index ∨ command = .pop .static index

/-- A command that uses a static variable loads its symbol. -/
theorem mem_symbolsOf_of_usesStatic (uses : command.UsesStatic index)
    (made : command.instructions layout unit numbering = .ok block) :
    staticSymbol unit index ∈ symbolsOf block := by
  rcases uses with rfl | rfl
  · cases lowers_of_instructions made with
    | push located =>
      obtain rfl := Option.some.inj located
      exact List.mem_cons_self
  · cases lowers_of_instructions made with
    | pop located popped =>
      obtain rfl := Option.some.inj located
      obtain rfl := Option.some.inj popped
      exact List.mem_cons_of_mem _ List.mem_cons_self

end Instructions

end JackToolchain.Vm
