import JackToolchain.Proofs.Assembling
import JackToolchain.Proofs.Jack.Functions
import JackToolchain.Proofs.Jack.Ranges

/-!
# Building programs of classes

Classes that compile are linked and assembled: their functions, labels and static variables have
symbols that never meet, and all their commands have instructions.
-/
namespace JackToolchain

open Assembly (Instruction instructionsOf isSymbol)
open Machine
open Vm (Command AllLinkable IsQualified Linkable entries)

/-- The name of a unit and the commands of its class. -/
def SourceUnit.compiled (options : Options) (unit : SourceUnit) : String × List Command :=
  (unit.name, (Jack.compile options.runtime unit.source).toOption.getD [])

/-- Units that make a program for the standard memory map: the classes compile and keep to the
limits of the machine, and units and classes have different names. -/
structure Buildable (options : Options) (units : List SourceUnit) : Prop where
  /-- The memory map is the standard one. -/
  standard : options.layout = {}
  /-- The run-time routines have names of the language. -/
  runtime : options.runtime.Named
  /-- The names of the units are different. -/
  names : (units.map fun unit => unit.name).Nodup
  /-- The name of each unit is a symbol without the mark between the parts of symbols. -/
  symbols : ∀ unit ∈ units, isSymbol unit.name.toList = true ∧ '$' ∉ unit.name.toList
  /-- Each unit holds a class that compiles and keeps to the limits of the machine. -/
  compiles : ∀ unit ∈ units, ∃ cls code, Jack.readClass unit.source = .ok cls ∧
    cls.commands options.runtime = .ok code ∧ cls.Modest
  /-- The names of the classes are different. -/
  classes : units.Pairwise fun left right => ∀ cls other, Jack.readClass left.source = .ok cls →
    Jack.readClass right.source = .ok other → cls.name.node ≠ other.name.node

section Units

variable {options : Options} {units : List SourceUnit} {unit : SourceUnit}

/-- The commands of a unit are those of its class. -/
theorem compiled_eq {cls : Jack.Class} {code : List Command}
    (read : Jack.readClass unit.source = .ok cls)
    (made : cls.commands options.runtime = .ok code) :
    unit.compiled options = (unit.name, code) := by
  have compiled : Jack.compile options.runtime unit.source = .ok code :=
    bind_eq_ok.mpr ⟨cls, read, made⟩
  rw [SourceUnit.compiled, compiled]
  rfl

/-- A unit holds a class that compiles to its commands. -/
theorem Buildable.exists_class (given : Buildable options units) (member : unit ∈ units) :
    ∃ cls code, Jack.readClass unit.source = .ok cls ∧ cls.commands options.runtime = .ok code ∧
      cls.Modest ∧ unit.compiled options = (unit.name, code) := by
  obtain ⟨cls, code, read, made, modest⟩ := given.compiles unit member
  exact ⟨cls, code, read, made, modest, compiled_eq read made⟩

/-- A unit of a class that compiles and keeps to the limits can be linked. -/
theorem Buildable.linkable (given : Buildable options units) (member : unit ∈ units) :
    Linkable (unit.compiled options) := by
  obtain ⟨cls, code, read, made, modest, own⟩ := given.exists_class member
  obtain ⟨symbol, plain⟩ := given.symbols unit member
  rw [own]
  have fits := (Jack.fits_of_readClass read).of_modest modest
  obtain ⟨known, clsMade, subroutinesMade⟩ := bind_eq_ok.mp made
  obtain ⟨functional, -, high, numbered⟩ := Jack.functional_of_subroutines subroutinesMade
  constructor
  case symbol => exact symbol
  case plain => exact plain
  case spelled => exact Jack.spelled_of_commands given.runtime fits (by decide) made
  case inRange => exact Jack.inRange_of_commands fits modest made
  case functional => exact functional
  case labels => exact numbered.distinct
  case qualified =>
    intro name entered
    obtain ⟨subroutine, inside, rfl⟩ := (Jack.mem_entries_iff made).mp entered
    exact Jack.isQualified_qualify (fits.subroutines subroutine inside).name

/-- Units of classes that compile and keep to the limits can be linked with each other. -/
theorem Buildable.allLinkable (given : Buildable options units) :
    AllLinkable (units.map (SourceUnit.compiled options)) := by
  constructor
  case each =>
    intro unit member
    obtain ⟨source, inside, rfl⟩ := List.mem_map.mp member
    exact given.linkable inside
  case names =>
    rw [List.map_map]
    exact given.names
  case functions =>
    rw [List.flatMap_map]
    refine List.nodup_flatMap.mpr ⟨fun unit member => ?_, ?_⟩
    · obtain ⟨cls, code, read, made, -, own⟩ := given.exists_class member
      rw [own]
      exact Jack.nodup_entries made
    · refine given.classes.imp_of_mem fun {left right} inLeft inRight different => ?_
      intro name first second
      obtain ⟨cls, code, read, made, -, own⟩ := given.exists_class inLeft
      obtain ⟨other, otherCode, otherRead, otherMade, -, otherOwn⟩ := given.exists_class inRight
      have first : name ∈ entries (left.compiled options).2 := first
      have second : name ∈ entries (right.compiled options).2 := second
      rw [own] at first
      rw [otherOwn] at second
      obtain ⟨subroutine, inside, rfl⟩ := (Jack.mem_entries_iff made).mp first
      obtain ⟨another, within, same⟩ := (Jack.mem_entries_iff otherMade).mp second
      have word := ((Jack.fits_of_readClass read).subroutines subroutine inside).name
      have otherWord := ((Jack.fits_of_readClass otherRead).subroutines another within).name
      exact different cls other read otherRead (Jack.qualify_class_inj word otherWord same.symm)

/-- A unit of a class that compiles and keeps to the limits has lines. -/
theorem Buildable.exists_lines (given : Buildable options units) (member : unit ∈ units) :
    ∃ lines, buildUnit options unit = .ok lines ∧
      HasLines options (unit.compiled options) lines := by
  obtain ⟨cls, code, read, made, modest, own⟩ := given.exists_class member
  have linkable := given.linkable member
  rw [own] at linkable ⊢
  let commands : List (Spanned Command) := code.map fun command => ⟨command, .nowhere⟩
  have inRange : ∀ command ∈ commands, command.node.InRange options.layout := by
    intro command inside
    obtain ⟨node, there, rfl⟩ := List.mem_map.mp inside
    rw [given.standard]
    exact linkable.inRange node there
  obtain ⟨lines, linesMade⟩ := @Vm.exists_unitLines options.layout unit.name options.comments
    commands inRange
  refine ⟨lines, SourceUnit.reporting_eq_ok.mpr ?_, linkable.spelled, commands, ?_, linesMade⟩
  · exact bind_eq_ok.mpr ⟨code, bind_eq_ok.mpr ⟨cls, read, made⟩, linesMade⟩
  · rw [List.map_map]
    exact List.map_id code

/-! ## Programs -/

/-- If each item of a list has a value, they have values in order. -/
private theorem exists_forall₂ {α β : Type} {items : List α} {meant : α → β → Prop}
    (each : ∀ item ∈ items, ∃ value, meant item value) :
    ∃ values, List.Forall₂ meant items values := by
  induction items with
  | nil => exact ⟨[], .nil⟩
  | cons item rest ih =>
    obtain ⟨value, own⟩ := each item List.mem_cons_self
    obtain ⟨values, others⟩ := ih fun other member => each other (List.mem_cons_of_mem _ member)
    exact ⟨value :: values, .cons own others⟩

/-- Classes that compile and keep to the limits of the machine are built, and the assembler reads
the program as the blocks of their commands. If the program fits into the program memory, it is
assembled, and the symbol table separates all that has a symbol in it. -/
theorem build_assembles (given : Buildable options units) :
    ∃ text nodes, build options units = .ok text ∧ Assembly.readProgram text = .ok nodes ∧
      instructionsOf nodes = programCode options (units.map (SourceUnit.compiled options)) ∧
      (size (instructionsOf nodes) ≤ romSize →
        ∃ program, Assembly.assemble text = .ok program ∧
          Separates options.bootstrap (units.map (SourceUnit.compiled options))
            program.symbols) := by
  obtain ⟨written, both⟩ := exists_forall₂ fun unit member => given.exists_lines member
  have built := both.imp fun unit lines own => own.1
  have made : List.Forall₂ (HasLines options) (units.map (SourceUnit.compiled options)) written :=
    List.forall₂_map_left_iff.mpr (both.imp fun unit lines own => own.2)
  obtain ⟨nodes, read, code, assembles⟩ := given.allLinkable.assembles given.standard made
  refine ⟨_, nodes, link_map_eq_ok.mpr ⟨written, built, rfl⟩, read, code, fun fits => ?_⟩
  obtain ⟨program, assembled, separates⟩ := assembles fits
  exact ⟨program, bind_eq_ok.mpr ⟨nodes, read, assembled⟩, separates⟩

end Units

/-! ## Two classes -/

/-- A class that counts to two in a static variable and then starts again. -/
def tallyUnit (name : String) : SourceUnit where
  name := name
  filename := name ++ ".jack"
  source :=
    "class " ++ name ++ " \x7b static int n; function void run() \x7b while (n < 2) \x7b" ++
      "let n = n + 1; \x7d do " ++ name ++ ".run(); return; \x7d \x7d"

/-- Whether a class is such a one. -/
def isTally (name : String) (cls : Jack.Class) : Bool :=
  match cls with
  | ⟨own, [⟨.static, _, declared⟩], [⟨.function, _, routine, [], [],
      [.loop (.binary .lt (.variable tested _) (.integer 2 _) _)
        [.assign target (.binary .add (.variable added _) (.integer 1 _) _) _] _,
       .call (some receiver) callee [] _, .leave none _]⟩]⟩ =>
    own.node = name && declared.node = "n" && routine.node = "run" && tested = "n" &&
      target.node = "n" && added = "n" && receiver.node = name && callee.node = "run"
  | _ => false

/-- The commands of such a class. -/
def tallyCode (name : String) : List Command :=
  let run := Jack.ClassScope.qualify name "run"
  [.function run 0, .label "WHILE_TOP_0", .push .static 0, .push .constant 2, .operate .lt,
    .operate .not, .ifGoto "WHILE_END_1", .push .static 0, .push .constant 1, .operate .add,
    .pop .static 0, .goto "WHILE_TOP_0", .label "WHILE_END_1", .call run 0, .pop .temp 0,
    .push .constant 0, .return]

/-- Such a class keeps to the limits of the machine, and it has these commands. -/
private theorem of_isTally {name : String} {cls : Jack.Class} (tally : isTally name cls = true)
    (other : name ≠ "n") :
    cls.name.node = name ∧ cls.Modest ∧ cls.commands {} = .ok (tallyCode name) := by
  unfold isTally at tally
  split at tally
  · simp only [Bool.and_eq_true, decide_eq_true_eq] at tally
    obtain ⟨⟨⟨⟨⟨⟨⟨own, declared⟩, routine⟩, tested⟩, target⟩, added⟩, receiver⟩, callee⟩ := tally
    refine ⟨own, ⟨fun storage => ?_, by simp, by simp, ?_⟩, ?_⟩
    · exact Nat.le_trans List.countP_le_length (Nat.le_of_ble_eq_true rfl)
    · simp [Jack.Class.parts, Jack.Stmt.bodyParts, Jack.Stmt.parts, Jack.Expr.parts,
        Jack.Expr.argumentParts, Jack.Expr.Modest]
    · have noVariable : ("n" == name) = false := beq_eq_false_iff_ne.mpr (Ne.symm other)
      simp [Jack.Class.commands, Jack.ClassScope.ofClass, own, declared, routine, tested, target,
        added, receiver, callee, noVariable, Jack.loopCommands, Jack.Entry.push, Jack.Entry.pop,
        Jack.prologue, Jack.BinaryOp.command, Jack.Callee.call, Jack.ClassScope.addSubroutine,
        Jack.subroutineCommands, Jack.Subroutine.commands, Jack.Scope.ofSubroutine,
        Jack.SymbolTable.declareAll, Jack.SymbolTable.declare, Jack.bodyCommands,
        Jack.Stmt.commands, Jack.Scope.callee, Jack.Scope.resolve, Jack.Scope.lookup?,
        Jack.SymbolTable.get?, Jack.argumentCommands, Jack.Expr.commands, bind, Except.bind, pure,
        Except.pure, tallyCode]
      exact ⟨by decide, ⟨rfl, rfl⟩, by decide, ⟨rfl, rfl⟩, by decide, by decide⟩
  · contradiction

/-- The text of such a class is read as one. -/
private theorem tally_compiles {name : String} (other : name ≠ "n")
    (read : (Jack.readClass (tallyUnit name).source).toOption.any (isTally name) = true) :
    ∃ cls, Jack.readClass (tallyUnit name).source = .ok cls ∧ cls.name.node = name ∧
      cls.Modest ∧ cls.commands {} = .ok (tallyCode name) := by
  obtain ⟨cls, found, tally⟩ := (Option.any_eq_true _ _).mp read
  exact ⟨cls, toOption_eq_some.mp found, of_isTally tally other⟩

/-- Two such classes are assembled, and their static variables are apart. -/
theorem tally_build_assembles :
    Buildable {} [tallyUnit "Main", tallyUnit "Other"] ∧
      ∃ text program, build {} [tallyUnit "Main", tallyUnit "Other"] = .ok text ∧
        Assembly.assemble text = .ok program ∧
        Separates true [("Main", tallyCode "Main"), ("Other", tallyCode "Other")]
          program.symbols := by
  obtain ⟨main, mainRead, mainName, mainModest, mainMade⟩ :=
    @tally_compiles "Main" (by decide) (by decide +kernel)
  obtain ⟨other, otherRead, otherName, otherModest, otherMade⟩ :=
    @tally_compiles "Other" (by decide) (by decide +kernel)
  have given : Buildable {} [tallyUnit "Main", tallyUnit "Other"] := by
    constructor
    case standard => rfl
    case runtime =>
      exact ⟨by decide, by decide, by decide, by decide,
        by decide⟩
    case names => decide
    case symbols => decide
    case compiles =>
      exact List.forall_mem_cons.mpr ⟨⟨main, _, mainRead, mainMade, mainModest⟩,
        List.forall_mem_singleton.mpr ⟨other, _, otherRead, otherMade, otherModest⟩⟩
    case classes =>
      refine List.pairwise_pair.mpr fun cls another read again => ?_
      obtain rfl := Except.ok.inj (mainRead.symm.trans read)
      obtain rfl := Except.ok.inj (otherRead.symm.trans again)
      rw [mainName, otherName]
      decide
  obtain ⟨text, nodes, built, -, code, assembles⟩ := build_assembles given
  have units : [tallyUnit "Main", tallyUnit "Other"].map (SourceUnit.compiled {}) =
      [("Main", tallyCode "Main"), ("Other", tallyCode "Other")] := by
    rw [List.map_cons, List.map_singleton, compiled_eq mainRead mainMade,
      compiled_eq otherRead otherMade]
    rfl
  rw [units] at code assembles
  have fits : size (programCode {} [("Main", tallyCode "Main"), ("Other", tallyCode "Other")]) ≤
      romSize := by decide +kernel
  obtain ⟨program, assembled, separates⟩ := assembles (code ▸ fits)
  exact ⟨given, text, program, built, assembled, separates⟩

end JackToolchain
