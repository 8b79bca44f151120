import JackToolchain.Proofs.Allocation
import JackToolchain.Proofs.Jack.Places
import JackToolchain.Proofs.Jack.Rereading

/-!
# Static variables and the stack

The assembler does not know where the bootstrap puts the stack, so a static variable lies below the
stack only if few enough symbols come before it. A class can have more static variables than that.
-/
namespace JackToolchain

open Assembly (Instruction)
open Machine
open Vm

/-! ## The stack -/

section Stack

/-- A cell that no push onto a stack from a base on changes. -/
def OutOfReach (base : Nat) (cell : Word) : Prop :=
  ∀ (memory : Memory) (value : Word), base ≤ memory.stackPointer.toNat →
    StackCell memory.stackPointer → (memory.push value).read cell = memory.read cell

/-- The cells behind those of the platform that are out of reach are those below the base. -/
theorem outOfReach_iff {base : Nat} {cell : Word} (own : StackCell cell) :
    OutOfReach base cell ↔ cell.toNat < base := by
  obtain ⟨low, high⟩ := own
  constructor
  · intro kept
    by_contra above
    -- A stack pointer at the cell itself: what is pushed takes the place of what was there.
    let memory : Memory := Memory.write (Vector.replicate ramSize 0) 0 cell
    have pointer : memory.stackPointer = cell := Memory.stackPointer_write_zero
    have inside : StackCell memory.stackPointer := by
      rw [pointer]
      exact ⟨low, high⟩
    have same := kept memory (memory.read cell + 1) (by rw [pointer]; omega) inside
    have changed := @read_push_self memory (memory.read cell + 1) inside
    rw [pointer, same] at changed
    simp at changed
  · intro below memory value atLeast inside
    obtain ⟨pointerLow, pointerHigh⟩ := inside
    exact read_push (by omega) (by omega)

end Stack

/-! ## Classes with many static variables -/

section Crowded

namespace Jack

/-- The name of a variable with a number. -/
def numberedName (index : Nat) : String := "s" ++ index.repr

variable {count index : Nat}

/-- Numbers make different names. -/
theorem numberedName_injective : Function.Injective numberedName := by
  intro first second same
  have texts := congrArg String.toList same
  rw [numberedName, numberedName, String.toList_append, String.toList_append] at texts
  exact Assembly.repr_inj (String.toList_inj.mp (List.append_cancel_left texts))

/-- A numbered name can be written: it is no reserved word, because it ends in a digit. -/
theorem writable_numberedName (index : Nat) :
    (Lexeme.identifier (numberedName index)).Writable := by
  have chars : (numberedName index).toList = 's' :: index.repr.toList := by
    rw [numberedName, String.toList_append]
    rfl
  have digits (c : Char) (member : c ∈ index.repr.toList) : c.isDigit = true :=
    Assembly.isDigit_of_mem_repr member
  constructor
  · rw [chars, isWord, Bool.and_eq_true, List.all_eq_true]
    refine ⟨by decide, fun c member => ?_⟩
    simp [isWordChar, Char.isAlphanum, digits c member]
  · have letters : ∀ word ∈ Keyword.all, word.text.toList.any Char.isDigit = false := by decide
    apply List.find?_eq_none.mpr
    intro word member same
    have text : word.text = numberedName index := by simpa using same
    have none := letters word member
    obtain ⟨c, inside⟩ := List.exists_mem_of_ne_nil _ (all_isNameChar_repr index).1
    rw [text, chars] at none
    have digit : ('s' :: index.repr.toList).any Char.isDigit = true :=
      List.any_eq_true.mpr ⟨c, List.mem_cons_of_mem _ inside, digits c inside⟩
    rw [digit] at none
    contradiction

/-- Statements that set the variables with some numbers. -/
def settings (indices : List Nat) : List Stmt :=
  indices.map fun index => .assign ⟨numberedName index, .nowhere⟩ (.integer 1 .nowhere) .nowhere

/-- A class with a number of static variables, all of which its one function sets. -/
def crowded (count : Nat) : Class where
  name := ⟨"Sys", .nowhere⟩
  vars := (List.range count).map fun index => ⟨.static, .int, ⟨numberedName index, .nowhere⟩⟩
  subroutines := [{
    kind := .function
    result := .void
    name := ⟨"init", .nowhere⟩
    params := []
    locals := []
    body := settings (List.range count) }]

/-- Settings are as easy to write as one of them. -/
theorem settings_spellable (indices : List Nat) :
    (∀ lexeme ∈ Stmt.bodyLexemes (settings indices), lexeme.Writable) ∧
      Stmt.AllGrouped (settings indices) ∧ Stmt.allLevels (settings indices) ≤ 1 := by
  induction indices with
  | nil => exact ⟨fun lexeme member => by contradiction, trivial, Nat.zero_le 1⟩
  | cons index rest ih =>
    obtain ⟨words, grouped, shallow⟩ := ih
    have own := writable_numberedName index
    refine ⟨List.forall_mem_append.mpr ⟨?_, words⟩, ⟨trivial, grouped⟩,
      Nat.max_le.mpr ⟨Nat.le_refl 1, shallow⟩⟩
    have behind : ∀ lexeme ∈ [Lexeme.symbol .equals, .integer 1, .symbol .semicolon],
        lexeme.Writable := by decide
    exact List.forall_mem_cons.mpr ⟨trivial, List.forall_mem_cons.mpr ⟨own, behind⟩⟩

/-- Such a class can be written. -/
theorem spellable_crowded (count : Nat) : (crowded count).Spellable := by
  obtain ⟨set, grouped, shallow⟩ := settings_spellable (List.range count)
  have declared : ∀ lexeme ∈ (crowded count).vars.flatMap
      (fun item => declarationLexemes item.storage.keyword item.type item.name),
        lexeme.Writable := by
    intro lexeme member
    obtain ⟨item, inVars, inside⟩ := List.mem_flatMap.mp member
    obtain ⟨index, -, rfl⟩ := List.mem_map.mp inVars
    have all : ∀ lexeme ∈ [Lexeme.keyword .static, .keyword .int,
        .identifier (numberedName index), .symbol .semicolon], lexeme.Writable :=
      List.forall_mem_cons.mpr ⟨trivial, List.forall_mem_cons.mpr ⟨trivial,
        List.forall_mem_cons.mpr ⟨writable_numberedName index,
          List.forall_mem_singleton.mpr trivial⟩⟩⟩
    exact all lexeme inside
  have lexemes : (crowded count).lexemes =
      [Lexeme.keyword .class, .identifier "Sys", .symbol .braceOpen] ++
        ((crowded count).vars.flatMap
          (fun item => declarationLexemes item.storage.keyword item.type item.name) ++
        ([Lexeme.keyword .function, .keyword .void, .identifier "init", .symbol .parenOpen,
            .symbol .parenClose, .symbol .braceOpen] ++
          (Stmt.bodyLexemes (settings (List.range count)) ++
            [Lexeme.symbol .braceClose, .symbol .braceClose]))) := by
    simp [crowded, Class.lexemes, Subroutine.lexemes, braced, parenthesized, listed,
      SubroutineKind.keyword, JackType.lexeme]
  constructor
  case words =>
    have around : (∀ lexeme ∈ [Lexeme.keyword .class, .identifier "Sys", .symbol .braceOpen],
        lexeme.Writable) ∧
        (∀ lexeme ∈ [Lexeme.keyword .function, .keyword .void, .identifier "init",
          .symbol .parenOpen, .symbol .parenClose, .symbol .braceOpen], lexeme.Writable) ∧
        ∀ lexeme ∈ [Lexeme.symbol .braceClose, .symbol .braceClose], lexeme.Writable := by
      decide
    rw [lexemes]
    exact List.forall_mem_append.mpr ⟨around.1, List.forall_mem_append.mpr ⟨declared,
      List.forall_mem_append.mpr ⟨around.2.1, List.forall_mem_append.mpr ⟨set, around.2.2⟩⟩⟩⟩
  case classVars =>
    intro item member
    obtain ⟨index, -, rfl⟩ := List.mem_map.mp member
    simp
  case ownVars => exact List.forall_mem_singleton.mpr fun item none => by contradiction
  case grouped => exact List.forall_mem_singleton.mpr grouped
  case shallow => exact List.forall_mem_singleton.mpr (shallow.trans (Nat.le_of_ble_eq_true rfl))

/-- The commands that set variables. -/
def settingCommands (indices : List Nat) : List Command :=
  indices.flatMap fun index => [.push .constant 1, .pop .static index]

/-- The commands of such a class. -/
def crowdedCode (count : Nat) : List Command :=
  .function "Sys.init" 0 :: settingCommands (List.range count)

/-- Settings of static variables are compiled to the commands that set them. -/
theorem bodyCommands_settings {scope : Scope} {number : Nat} {indices : List Nat}
    (known : ∀ index ∈ indices, scope.lookup? (numberedName index) = some ⟨.int, .static, index⟩) :
    bodyCommands {} scope number (settings indices) = .ok (settingCommands indices, number) := by
  induction indices with
  | nil => rfl
  | cons index rest ih =>
    obtain ⟨own, others⟩ := List.forall_mem_cons.mp known
    have first : (Stmt.assign ⟨numberedName index, .nowhere⟩ (.integer 1 .nowhere)
        .nowhere).commands {} scope number =
          .ok ([.push .constant 1, .pop .static index], number) := by
      refine bind_eq_ok.mpr ⟨_, rfl, bind_eq_ok.mpr ⟨⟨.int, .static, index⟩, ?_, rfl⟩⟩
      simp only [Scope.resolve, own]
    exact bind_eq_ok.mpr ⟨_, first, bind_eq_ok.mpr ⟨_, ih others, rfl⟩⟩

/-- Numbered static variables that are declared in order have their numbers. -/
theorem declared?_numbered {count index : Nat} (inside : index < count) :
    declared? ((List.range count).map fun index => ⟨numberedName index, .int, .static⟩)
      (numberedName index) = some ⟨.int, .static, index⟩ := by
  induction count with
  | zero => contradiction
  | succ count ih =>
    rw [List.range_succ, List.map_append, List.map_singleton, declared?_concat]
    by_cases last : index = count
    · subst last
      have new : numberedName index ∉
          ((List.range index).map fun index => (⟨numberedName index, .int, .static⟩ :
            Declaration)).map Declaration.name := by
        rw [List.map_map]
        intro old
        obtain ⟨other, below, same⟩ := List.mem_map.mp old
        have equal := numberedName_injective same
        rw [equal] at below
        exact Nat.lt_irrefl index (List.mem_range.mp below)
      have all : declaredCount .static ((List.range index).map fun index =>
          ⟨numberedName index, .int, .static⟩) = index := by
        rw [declaredCount, List.countP_map]
        simp [Function.comp_def]
      rw [declared?_eq_none new, Option.none_or, if_pos rfl, all]
    · rw [ih (by omega), Option.some_or]

/-- Such a class is compiled. -/
theorem commands_crowded (count : Nat) : (crowded count).commands {} = .ok (crowdedCode count) := by
  have declarations : (crowded count).declarations =
      (List.range count).map fun index => ⟨numberedName index, .int, .static⟩ := by
    simp [crowded, Class.declarations, ClassStorage.storage, Function.comp_def]
  have names : (crowded count).vars.map (fun item => item.name.node) =
      (List.range count).map numberedName := by
    simp [crowded, Function.comp_def]
  have start := SymbolTable.knows_nil (ClassScope.title "Sys")
  have distinct : (([] : List Declaration).map Declaration.name ++
      (crowded count).vars.map fun item => item.name.node).Nodup := by
    rw [names]
    exact List.nodup_range.map numberedName_injective
  obtain ⟨vars, folded⟩ := start.exists_fold (fun item : ClassVariable => item.name)
    (fun item => item.type) (fun item => item.storage.storage) distinct
  have added : ∃ subroutines, (crowded count).subroutines.foldlM (ClassScope.addSubroutine "Sys")
      (∅ : Std.HashMap String SubroutineKind) = .ok subroutines := by
    simp [crowded, ClassScope.addSubroutine, bind, Except.bind, pure, Except.pure]
  obtain ⟨subroutines, added⟩ := added
  have scope : ClassScope.ofClass (crowded count) = .ok ⟨"Sys", vars, subroutines⟩ :=
    bind_eq_ok.mpr ⟨vars, folded, bind_eq_ok.mpr ⟨subroutines, added, rfl⟩⟩
  obtain ⟨-, knows, -⟩ := knows_of_ofClass scope
  have known : ∀ index ∈ List.range count,
      (⟨⟨"Sys", vars, subroutines⟩, { scope := "Sys.init" }⟩ : Scope).lookup?
        (numberedName index) = some ⟨.int, .static, index⟩ := by
    intro index inside
    have own := (knows.get (numberedName index)).trans
      (declarations ▸ declared?_numbered (List.mem_range.mp inside))
    simp only [Scope.lookup?, (SymbolTable.knows_nil "Sys.init").get]
    exact own
  have body := @bodyCommands_settings _ 0 (List.range count) known
  refine bind_eq_ok.mpr ⟨_, scope, ?_⟩
  refine bind_eq_ok.mpr ⟨(crowdedCode count, 0), ?_, bind_eq_ok.mpr ⟨[], rfl, ?_⟩⟩
  · exact bind_eq_ok.mpr ⟨_, rfl, bind_eq_ok.mpr ⟨_, body, rfl⟩⟩
  · exact congrArg Except.ok (List.append_nil _)

/-- The text of such a class is compiled. -/
theorem compile_crowded (count : Nat) :
    Jack.compile {} (crowded count).text = .ok (crowdedCode count) := by
  have spellable := spellable_crowded count
  obtain ⟨tokens, scanned, nodes⟩ := scan_spacedText spellable.words
  obtain ⟨cls, read, same⟩ := exists_read_of_scan spellable scanned nodes
  exact bind_eq_ok.mpr ⟨cls, read, commands_of_unplaced_eq {} same (commands_crowded count)⟩

/-! ### Their commands -/

variable {indices : List Nat} {command : Command}

/-- Setting variables takes constants and static variables only. -/
theorem of_mem_settingCommands (member : command ∈ settingCommands indices) :
    command = .push .constant 1 ∨ ∃ index ∈ indices, command = .pop .static index := by
  obtain ⟨index, inside, own⟩ := List.mem_flatMap.mp member
  rcases List.mem_cons.mp own with rfl | last
  · exact .inl rfl
  · exact .inr ⟨index, inside, List.mem_singleton.mp last⟩

/-- Nothing is entered and nothing has a label where variables are set. -/
theorem names_settingCommands (indices : List Nat) :
    entries (settingCommands indices) = [] ∧ Routine.labels (settingCommands indices) = [] := by
  constructor <;>
  · apply List.filterMap_eq_nil_iff.mpr
    intro command member
    rcases of_mem_settingCommands member with rfl | ⟨index, -, rfl⟩ <;> rfl

/-- Such a class has one function. -/
theorem entries_crowded (count : Nat) : entries (crowdedCode count) = ["Sys.init"] :=
  congrArg (List.cons _) (names_settingCommands _).1

/-- Such a class has no labels. -/
theorem labels_crowded (count : Nat) : Routine.labels (crowdedCode count) = [] :=
  (names_settingCommands _).2

/-- The commands of such a class are well-spelled and in range. -/
theorem linkable_commands_crowded (few : count ≤ Text.bound32)
    (member : command ∈ crowdedCode count) : command.Spelled ∧ command.InRange {} := by
  rcases List.mem_cons.mp member with rfl | inside
  · decide
  · rcases of_mem_settingCommands inside with rfl | ⟨index, below, rfl⟩
    · decide
    · have small : index < count := List.mem_range.mp below
      exact ⟨Nat.lt_of_lt_of_le small few, by decide, trivial⟩

/-- The commands of such a class are generated. -/
theorem generated_crowded (few : count ≤ Text.bound32) : Generated (crowdedCode count) := by
  constructor
  case spelled => exact fun command member => (linkable_commands_crowded few member).1
  case functional =>
    have plain : ∀ command ∈ settingCommands (List.range count), command.isEntry = false ∧
        command.target? = .none := by
      intro command member
      rcases of_mem_settingCommands member with rfl | ⟨index, -, rfl⟩ <;> exact ⟨rfl, rfl⟩
    have inside : JumpsTo (Routine.labels (settingCommands (List.range count)))
        (settingCommands (List.range count)) := by
      intro command member name target
      rw [(plain command member).2] at target
      contradiction
    have own : Functional (.function "Sys.init" 0 :: (settingCommands (List.range count) ++ [])) :=
      .function (fun command member => (plain command member).1) inside .nil
    rw [List.append_nil] at own
    exact own
  case qualified =>
    have word : isWord "init".toList = true := by decide
    rw [entries_crowded]
    exact List.forall_mem_singleton.mpr (@isQualified_qualify "Sys" "init" word)
  case numbered =>
    rw [labels_crowded]
    exact fun name member => by contradiction

/-- What such a class leaves to the assembler are its static variables, each once. -/
theorem requested_settingCommands (unit : String) (indices : List Nat) :
    (settingCommands indices).filterMap (Command.requested? unit) =
      indices.map (staticSymbol unit) := by
  induction indices with
  | nil => rfl
  | cons index rest ih => exact congrArg (List.cons _) ih

end Jack

/-! ## Programs of such classes -/

variable {name : String} {count index : Nat}

/-- The static variables of such a class are used. -/
theorem hasStatic_crowded (inside : index < count) :
    HasStatic (name, Jack.crowdedCode count) index := by
  have sets : Command.pop .static index ∈ Jack.settingCommands (List.range count) := by
    apply List.mem_flatMap.mpr
    exact ⟨index, List.mem_range.mpr inside, List.mem_cons_of_mem _ List.mem_cons_self⟩
  exact ⟨_, List.mem_cons_of_mem _ sets, .inr rfl⟩

/-- A unit of such a class. -/
def crowdedUnit (name : String) (count : Nat) : SourceUnit where
  name := name
  filename := "Sys.jack"
  source := (Jack.crowded count).text

/-- The commands of such a unit. -/
theorem compiled_crowdedUnit (name : String) (count : Nat) :
    (crowdedUnit name count).compiled {} = (name, Jack.crowdedCode count) := by
  have compiled : Jack.compile ({} : Options).runtime (crowdedUnit name count).source =
      .ok (Jack.crowdedCode count) := Jack.compile_crowded count
  rw [SourceUnit.compiled, compiled]
  rfl

/-- The commands of such a unit, without places. -/
def crowdedNodes (count : Nat) : List (Spanned Command) :=
  (Jack.crowdedCode count).map fun command => ⟨command, .nowhere⟩

/-- The lines of a program of one such unit. -/
def crowdedLines (name : String) (count : Nat) : List Assembly.Line :=
  programLines {} [(unitLines {} false name (crowdedNodes count)).toOption.getD []]

/-- Such a unit is built, as a program of its own. -/
theorem build_crowdedUnit (few : count ≤ Text.bound32) :
    ∃ lines, HasLines {} (name, Jack.crowdedCode count) lines ∧
      crowdedLines name count = programLines {} [lines] ∧
      build {} [crowdedUnit name count] =
        .ok (Assembly.linesText (crowdedLines name count) ++ "\n") := by
  have inRange : ∀ command ∈ crowdedNodes count, command.node.InRange {} := by
    intro command inside
    obtain ⟨node, there, rfl⟩ := List.mem_map.mp inside
    exact (Jack.linkable_commands_crowded few there).2
  obtain ⟨lines, made⟩ := @exists_unitLines {} name false (crowdedNodes count) inRange
  have spelled : ∀ command ∈ Jack.crowdedCode count, command.Spelled := fun command member =>
    (Jack.linkable_commands_crowded few member).1
  have nodes : (crowdedNodes count).map (fun command => command.node) = Jack.crowdedCode count := by
    rw [crowdedNodes, List.map_map]
    exact List.map_id _
  have built : buildUnit {} (crowdedUnit name count) = .ok lines :=
    SourceUnit.reporting_eq_ok.mpr (bind_eq_ok.mpr ⟨_, Jack.compile_crowded count, made⟩)
  have own : crowdedLines name count = programLines {} [lines] := by
    rw [crowdedLines, made]
    rfl
  refine ⟨lines, ⟨spelled, _, nodes, made⟩, own, ?_⟩
  rw [own]
  exact link_map_eq_ok.mpr ⟨[lines], .cons built .nil, rfl⟩

/-- The loose symbols of a program of one such unit are its static variables. -/
theorem looseSymbols_crowded (few : count ≤ Text.bound32) :
    looseSymbols [(name, Jack.crowdedCode count)] = (List.range count).map (staticSymbol name) := by
  have leaves : requested [(name, Jack.crowdedCode count)] =
      "Sys.init" :: (List.range count).map (staticSymbol name) := by
    have own := Jack.requested_settingCommands name (List.range count)
    simp only [requested, List.flatMap_cons, List.flatMap_nil, List.append_nil, Jack.crowdedCode]
    exact congrArg (List.cons _) own
  rw [looseSymbols, leaves, List.flatMap_singleton, Jack.entries_crowded,
    List.filter_cons_of_neg (by simp)]
  apply List.filter_eq_self.mpr
  intro symbol member
  obtain ⟨index, -, rfl⟩ := List.mem_map.mp member
  have fresh : staticSymbol name index ∉ Assembly.predefined.map Prod.fst := fun platform =>
    (bare_of_predefined platform).1 (dot_staticSymbol name index)
  have qualified := (Jack.generated_crowded few).qualified
  rw [Jack.entries_crowded] at qualified
  have own : staticSymbol name index ∉ ["Sys.init"] := fun entry =>
    not_isQualified_staticSymbol (qualified _ entry)
  exact decide_eq_true ⟨fresh, own⟩

/-- In front of one static variable of such a class come those with smaller numbers. -/
theorem looseBefore_crowded (few : count ≤ Text.bound32) (inside : index < count) :
    looseBefore [(name, Jack.crowdedCode count)] (staticSymbol name index) = index := by
  have injective : Function.Injective (staticSymbol name) := fun left right same =>
    (staticSymbol_inj same).2
  have front : ((List.range count).map (staticSymbol name)).takeWhile
      (· ≠ staticSymbol name index) = (List.range index).map (staticSymbol name) := by
    obtain ⟨rest, rfl⟩ := Nat.exists_eq_add_of_lt inside
    rw [Nat.add_assoc, List.range_add, List.range_succ_eq_map, List.map_cons, List.map_append,
      List.map_cons, Nat.add_zero, List.takeWhile_append_of_pos,
      List.takeWhile_cons_of_neg (by simp), List.append_nil]
    intro symbol member
    obtain ⟨other, below, rfl⟩ := List.mem_map.mp member
    apply decide_eq_true
    intro same
    have equal := injective same
    have small := List.mem_range.mp below
    omega
  rw [looseBefore, looseSymbols_crowded few, front,
    (List.nodup_range.map injective).dedup, List.length_map, List.length_range]

/-- A unit of such a class with an ordinary name can be linked with itself alone. -/
theorem allLinkable_crowded (few : count ≤ Text.bound32) :
    AllLinkable [("Sys", Jack.crowdedCode count)] := by
  have generated := Jack.generated_crowded few
  constructor
  case each =>
    intro unit member
    rw [List.mem_singleton.mp member]
    constructor
    case symbol => exact (by decide : Assembly.isSymbol "Sys".toList = true)
    case plain => exact (by decide : '$' ∉ "Sys".toList)
    case spelled => exact generated.spelled
    case inRange => exact fun command member => (Jack.linkable_commands_crowded few member).2
    case functional => exact generated.functional
    case labels =>
      show (Routine.labels (Jack.crowdedCode count)).Nodup
      rw [Jack.labels_crowded]
      exact List.nodup_nil
    case qualified => exact generated.qualified
  case names => exact List.nodup_singleton _
  case functions =>
    rw [List.flatMap_singleton, Jack.entries_crowded]
    exact List.nodup_singleton _

/-- A program of one such unit that fits into the program memory has its static variables in the
cells behind those of the platform, in order, wherever the stack is. -/
theorem crowded_assembles (few : count ≤ Text.bound32)
    (fits : size (programCode {} [("Sys", Jack.crowdedCode count)]) ≤ romSize) :
    ∃ text program, build {} [crowdedUnit "Sys" count] = .ok text ∧
      Assembly.assemble text = .ok program ∧
      ∀ index < count, (program.symbols.address? (staticSymbol "Sys" index)).map UInt16.toNat =
        some (16 + index) := by
  obtain ⟨lines, hasLines, own, built⟩ := @build_crowdedUnit "Sys" count few
  have generated : ∀ unit ∈ [("Sys", Jack.crowdedCode count)], Generated unit.2 :=
    List.forall_mem_singleton.mpr (Jack.generated_crowded few)
  have made : List.Forall₂ (HasLines {}) [("Sys", Jack.crowdedCode count)] [lines] :=
    .cons hasLines .nil
  have oneLine : '\n' ∉ "Sys".toList := by decide
  have whole : ∀ unit ∈ [("Sys", Jack.crowdedCode count)], '\n' ∉ unit.1.toList :=
    List.forall_mem_singleton.mpr oneLine
  obtain ⟨instructions, -, -⟩ := programCode_written rfl made whole
  obtain ⟨nodes, read, code, assembles⟩ := (allLinkable_crowded few).assembles rfl made
  obtain ⟨program, assembled, -⟩ := assembles (code ▸ fits)
  rw [← own] at read
  refine ⟨_, program, built, bind_eq_ok.mpr ⟨nodes, read, assembled⟩, fun index inside => ?_⟩
  have value := address?_static generated instructions code assembled List.mem_cons_self
    (hasStatic_crowded inside)
  rw [looseBefore_crowded few inside] at value
  exact value

/-- The instructions that are read from the text of a program of one such unit. -/
def crowdedRead (name : String) (count : Nat) : Except Fault (List Instruction) :=
  ((Text.lines (Text.listing ((crowdedLines name count).map fun line =>
    line.text.toList))).filterMap fun line => Text.cleaned line.2).mapM Instruction.read

/-- A program of one such unit is assembled if what is read from its text can be. -/
theorem assembles_of_crowdedRead {code : List Instruction} (few : count ≤ Text.bound32)
    (read : crowdedRead name count = .ok code) (able : Assembly.Assemblable code) :
    ∃ text program, build {} [crowdedUnit name count] = .ok text ∧
      Assembly.assemble text = .ok program ∧
      ∀ symbol, (program.symbols.address? symbol).map UInt16.toNat =
        Assembly.symbolValue? code symbol := by
  obtain ⟨lines, -, own, built⟩ := @build_crowdedUnit name count few
  have filled : crowdedLines name count ≠ [] := by
    rw [own]
    exact programLines_ne_nil {} [lines]
  have items := Text.items_node (Assembly.linesText (crowdedLines name count) ++ "\n")
  rw [Assembly.toList_linesText filled] at items
  have texts := mapM_eq_ok.mp read
  rw [← items] at texts
  obtain ⟨nodes, nodesRead, same⟩ := Assembly.readProgram_of_items texts
  have encodable := Assembly.all_isEncodable.mpr able.encodable
  rw [← same] at able encodable
  obtain ⟨program, assembled⟩ :=
    Assembly.assembleInstructions_accepts able.distinct able.fresh encodable able.fits
  refine ⟨_, program, built, bind_eq_ok.mpr ⟨nodes, nodesRead, assembled⟩, ?_⟩
  rw [← same]
  exact Assembly.address?_eq_symbolValue? assembled

end Crowded

/-! ## Cells of static variables -/

section Statics

variable {units : List SourceUnit} {unit : SourceUnit} {text : String}
variable {program : Assembly.Program} {index : Nat}

/-- In a program that is built and assembled, a static variable that is used has the cell behind
those of the platform and of the loose symbols that are used before it. It is below the stack and
out of reach of pushes exactly if there are fewer than 240 of them, so all static variables are if
a program has no more than 240 loose symbols. This holds for units whose names neither end a line
nor start a comment. -/
theorem static_cell_of_build (short : ∀ unit ∈ units, unit.source.length < Text.bound32)
    (named : ∀ unit ∈ units, '\n' ∉ unit.name.toList ∧ ¬ ['/', '/'] <:+: unit.name.toList)
    (built : build {} units = .ok text) (assembled : Assembly.assemble text = .ok program)
    (member : unit ∈ units) (has : HasStatic (unit.compiled {}) index) :
    let all := units.map (SourceUnit.compiled {})
    let before := looseBefore all (staticSymbol unit.name index)
    ∃ cell, program.symbols.address? (staticSymbol unit.name index) = some cell ∧
      cell.toNat = 16 + before ∧ (cell.toNat < ({} : Layout).stackBase ↔ before < 240) ∧
      (OutOfReach ({} : Layout).stackBase cell ↔ before < 240) ∧
      ((looseSymbols all).dedup.length ≤ 240 → cell.toNat < ({} : Layout).stackBase) := by
  intro all before
  obtain ⟨generated, made, nodes, code, own⟩ := exists_code_of_build short named built assembled
  have source : unit.compiled {} ∈ all := List.mem_map_of_mem member
  have value := address?_static generated made code own source has
  obtain ⟨cell, address, number⟩ := Option.map_eq_some_iff.mp value
  have number : cell.toNat = 16 + before := number
  have few : before ≤ 16384 := looseBefore_le generated made code own (staticSymbol unit.name index)
  have less : before < (looseSymbols all).dedup.length :=
    looseBefore_lt (mem_looseSymbols generated made source has)
  have base : ({} : Layout).stackBase = 256 := rfl
  have inside : StackCell cell := ⟨by omega, by omega⟩
  have reach := @outOfReach_iff ({} : Layout).stackBase cell inside
  refine ⟨cell, address, number, by omega, ?_, by omega⟩
  rw [reach]
  omega

end Statics

/-- Two static variables of one class have the cells 16 and 17, which are out of reach. -/
theorem two_statics_cell :
    ∃ text program cell, build {} [crowdedUnit "Sys" 2] = .ok text ∧
      Assembly.assemble text = .ok program ∧
      program.symbols.address? (staticSymbol "Sys" 1) = some cell ∧ cell.toNat = 17 ∧
      OutOfReach ({} : Layout).stackBase cell := by
  have fits : size (programCode {} [("Sys", Jack.crowdedCode 2)]) ≤ romSize := by decide
  have few : 2 ≤ Text.bound32 := by decide
  obtain ⟨text, program, built, assembled, -⟩ := crowded_assembles few fits
  have short : ∀ unit ∈ [crowdedUnit "Sys" 2], unit.source.length < Text.bound32 :=
    List.forall_mem_singleton.mpr (by decide)
  have named : ∀ unit ∈ [crowdedUnit "Sys" 2],
      '\n' ∉ unit.name.toList ∧ ¬ ['/', '/'] <:+: unit.name.toList :=
    List.forall_mem_singleton.mpr (by decide)
  have has : HasStatic ((crowdedUnit "Sys" 2).compiled {}) 1 := by
    rw [compiled_crowdedUnit]
    exact hasStatic_crowded (by decide)
  obtain ⟨cell, address, number, -, reach, -⟩ :=
    static_cell_of_build short named built assembled List.mem_cons_self has
  have before : looseBefore ([crowdedUnit "Sys" 2].map (SourceUnit.compiled {}))
      (staticSymbol "Sys" 1) = 1 := by
    rw [List.map_singleton, compiled_crowdedUnit]
    exact looseBefore_crowded few (by decide)
  have less : looseBefore ([crowdedUnit "Sys" 2].map (SourceUnit.compiled {}))
      (staticSymbol "Sys" 1) < 240 := by omega
  exact ⟨text, program, cell, built, assembled, address,
    number.trans (congrArg (16 + ·) before), reach.mpr less⟩

/-- A program of one such unit whose static variable has no symbol in what is read is assembled, and
the static variable has no cell. -/
theorem nameless_static {name : String}
    (read : (crowdedRead name 1).toOption.any (fun code => (Assembly.labelsOf code).Nodup ∧
      (∀ label ∈ Assembly.labelsOf code, label ∉ Assembly.predefined.map Prod.fst) ∧
      size code ≤ romSize ∧ code.all Assembly.Instruction.isEncodable = true ∧
      Assembly.symbolValue? code (staticSymbol name 0) = none) = true) :
    ∃ text program, build {} [crowdedUnit name 1] = .ok text ∧
      Assembly.assemble text = .ok program ∧
      program.symbols.address? (staticSymbol name 0) = none ∧
      (program.address "SCREEN").toNat = 16384 := by
  obtain ⟨code, found, checked⟩ := (Option.any_eq_true _ _).mp read
  obtain ⟨distinct, fresh, fits, encodable, unknown⟩ := of_decide_eq_true checked
  have able : Assembly.Assemblable code :=
    ⟨distinct, fresh, fits, Assembly.all_isEncodable.mp encodable⟩
  obtain ⟨text, program, built, assembled, symbols⟩ :=
    assembles_of_crowdedRead (by decide) (toOption_eq_some.mp found) able
  have absent := (symbols (staticSymbol name 0)).trans unknown
  have listed : Assembly.predefined.lookup "SCREEN" = some 16384 := by decide
  have known : Assembly.symbolValue? code "SCREEN" = some 16384 := by
    rw [Assembly.symbolValue?, listed]
    rfl
  obtain ⟨cell, address, number⟩ := Option.map_eq_some_iff.mp ((symbols "SCREEN").trans known)
  refine ⟨text, program, built, assembled, Option.map_eq_none_iff.mp absent, ?_⟩
  rw [Assembly.Program.address, address]
  exact number

/-- A class with 241 static variables is built and assembled, and one of them has the first cell of
the stack. With a comment or a line end in the name of a unit, a static variable has no cell of its
own: behind the name `SCREEN//`, its commands use the first cell of the screen. -/
theorem statics_reach_stack :
    (∃ text program cell, build {} [crowdedUnit "Sys" 241] = .ok text ∧
      Assembly.assemble text = .ok program ∧
      HasStatic ((crowdedUnit "Sys" 241).compiled {}) 240 ∧
      program.symbols.address? (staticSymbol "Sys" 240) = some cell ∧
      cell.toNat = ({} : Layout).stackBase ∧ ¬ OutOfReach ({} : Layout).stackBase cell) ∧
    (∀ name ∈ ["SCREEN//", "line\n@line"], ∃ text program,
      build {} [crowdedUnit name 1] = .ok text ∧ Assembly.assemble text = .ok program ∧
      HasStatic ((crowdedUnit name 1).compiled {}) 0 ∧
      program.symbols.address? (staticSymbol name 0) = none ∧
      (name = "SCREEN//" → (program.addressOf (staticSymbol name 0)).toNat = 16384)) := by
  have fits : size (programCode {} [("Sys", Jack.crowdedCode 241)]) ≤ romSize := by decide +kernel
  have few : 241 ≤ Text.bound32 := by decide
  obtain ⟨text, program, built, assembled, cells⟩ := crowded_assembles few fits
  obtain ⟨cell, address, number⟩ := Option.map_eq_some_iff.mp (cells 240 (by decide))
  have base : ({} : Layout).stackBase = 256 := rfl
  have uses (name : String) {count index : Nat} (inside : index < count) :
      HasStatic ((crowdedUnit name count).compiled {}) index := by
    rw [compiled_crowdedUnit]
    exact hasStatic_crowded inside
  constructor
  · refine ⟨text, program, cell, built, assembled, uses "Sys" (by decide), address, number, ?_⟩
    have inside : StackCell cell := ⟨by omega, by omega⟩
    rw [outOfReach_iff inside]
    omega
  · intro name odd
    have own : ∃ text program, build {} [crowdedUnit name 1] = .ok text ∧
        Assembly.assemble text = .ok program ∧
        program.symbols.address? (staticSymbol name 0) = none ∧
        (program.address "SCREEN").toNat = 16384 := by
      rcases List.mem_cons.mp odd with rfl | other
      · exact nameless_static (by decide +kernel)
      · obtain rfl := List.mem_singleton.mp other
        exact nameless_static (by decide +kernel)
    obtain ⟨text, program, built, assembled, absent, screen⟩ := own
    refine ⟨text, program, built, assembled, uses name (by decide), absent, ?_⟩
    rintro rfl
    have read : (Instruction.symbol (staticSymbol "SCREEN//" 0)).reread? =
        some (.symbol "SCREEN") := by decide
    rw [Assembly.Program.addressOf, read]
    exact screen

end JackToolchain
