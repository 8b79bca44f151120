import JackToolchain.Proofs.Jack.Spelling
import JackToolchain.Proofs.Linking
import JackToolchain.Proofs.Vm.Rendering

/-!
# Two routes to a program

Classes become a program either at once or over the texts of their commands. Both routes give the
same program or the same reports: the texts are read back as the commands that were written, and
the lines of commands do not depend on the places where the commands stand. Only the places that
the reports name may differ.
-/
namespace JackToolchain

open Assembly (Line)
open Vm (Command Layout Numbering blocksInto unitLines)

/-- The unit with another text. -/
def SourceUnit.withSource (unit : SourceUnit) (source : String) : SourceUnit :=
  { unit with source }

/-- What a diagnostic says, apart from the place that it names: message, notes and advice. -/
def Diagnostic.wording (diagnostic : Diagnostic) : String × List String × Option String :=
  (diagnostic.message, diagnostic.notes, diagnostic.help)

/-- What a report says, apart from the place that it names. -/
def Report.wording (report : Report) : String × List String × Option String :=
  report.diagnostic.wording

/-! ## Commands without their places -/

section Places

variable {left right : List (Spanned Command)}

/-- The blocks of commands do not depend on the places of the commands. -/
theorem blocksInto_congr (layout : Layout) (comments : Bool) (unit : String)
    (done : List (List Line)) (numbering : Numbering)
    (same : left.map Spanned.node = right.map Spanned.node) :
    (blocksInto layout comments unit done numbering left).mapError Spanned.node =
      (blocksInto layout comments unit done numbering right).mapError Spanned.node := by
  induction left generalizing right done numbering with
  | nil =>
    obtain rfl := List.map_eq_nil_iff.mp same.symm
    rfl
  | cons first rest ih =>
    obtain ⟨other, others, rfl, node, later⟩ := List.map_eq_cons_iff.mp same.symm
    obtain ⟨command, place⟩ := first
    obtain ⟨_, otherPlace⟩ := other
    obtain rfl : _ = command := node
    rw [blocksInto, blocksInto]
    cases Command.instructions layout unit numbering _ with
    | ok block => exact ih _ _ later.symm
    | error fault => rfl

/-- The lines of commands do not depend on the places of the commands. -/
theorem unitLines_congr (layout : Layout) (comments : Bool) (unit : String)
    (same : left.map Spanned.node = right.map Spanned.node) :
    (unitLines layout comments unit left).mapError Spanned.node =
      (unitLines layout comments unit right).mapError Spanned.node :=
  bind_mapError_congr _ (blocksInto_congr layout comments unit [] { scope := unit } same)

end Places

/-! ## Units -/

section Units

variable {options : Options} {unit : SourceUnit} {text : String}

/-- What a report says depends on its fault only. -/
theorem reporting_mapError_wording {α : Type} {first second : Outcome α} (left right : SourceUnit)
    (same : first.mapError Spanned.node = second.mapError Spanned.node) :
    (left.reporting first).mapError Report.wording =
      (right.reporting second).mapError Report.wording := by
  cases first with
  | ok value =>
    cases second with
    | ok other =>
      obtain rfl := Except.ok.inj same
      rfl
    | error fault => contradiction
  | error fault =>
    cases second with
    | ok other => contradiction
    | error other =>
      have node : fault.node = other.node := Except.error.inj same
      change Except.error (fault.node.message, ["error kind: " ++ fault.node.kind],
        fault.node.help?) = _
      rw [node]
      rfl

/-- A class has the lines of the text of its commands. -/
theorem buildUnit_mapError (named : options.runtime.Named)
    (short : unit.source.length < Text.bound32) (compiled : compileUnit options unit = .ok text) :
    (buildUnit options unit).mapError Report.wording =
      (translateUnit options (unit.withSource text)).mapError Report.wording := by
  obtain ⟨commands, own, rendered⟩ := bind_eq_ok.mp (SourceUnit.reporting_eq_ok.mp compiled)
  obtain rfl := Except.ok.inj rendered
  have spelled := Jack.spelled_of_compile named short own
  unfold buildUnit translateUnit SourceUnit.withSource
  dsimp only
  rw [own, Vm.readProgram_render spelled]
  refine reporting_mapError_wording unit _ (unitLines_congr _ _ _ ?_)
  rw [Text.map_node_placed, List.map_map]
  exact List.map_id commands

end Units

/-! ## Programs -/

section Programs

variable {options : Options}

/-- A program is linked, or reported on, as what its units say. -/
theorem link_mapError {left right : List (Except Report (List Line))}
    (same : left.map (fun unit => unit.mapError Report.wording) =
      right.map fun unit => unit.mapError Report.wording) :
    (link options left).mapError (List.map Report.wording) =
      (link options right).mapError (List.map Report.wording) := by
  refine bind_mapError_congr _ ?_
  rw [← collect_mapError, same, collect_mapError]

/-- Classes that compile give the program, or the reports, of the texts of their commands: equal
texts of the program, or equally many reports with equal messages, notes and advice in the same
order. Offsets and counts have 32 bits, so a class has fewer than 2^32 characters. -/
theorem build_eq_translate {units : List SourceUnit} {texts : List String}
    (named : options.runtime.Named) (short : ∀ unit ∈ units, unit.source.length < Text.bound32)
    (compiled : List.Forall₂ (fun unit text => compileUnit options unit = .ok text) units texts) :
    (build options units).mapError (List.map Report.wording) =
      (translate options (List.zipWith SourceUnit.withSource units texts)).mapError
        (List.map Report.wording) := by
  refine link_mapError ?_
  rw [List.map_map, List.map_map]
  induction compiled with
  | nil => rfl
  | @cons unit text _ _ own _ ih =>
    rw [List.zipWith_cons_cons, List.map_cons, List.map_cons]
    congr 1
    · exact buildUnit_mapError named (short unit List.mem_cons_self) own
    · exact ih fun other member => short other (List.mem_cons_of_mem _ member)

/-- A class whose only subroutine prints a text. -/
def greetingUnit : SourceUnit where
  name := "Main"
  filename := "Main.jack"
  source :=
    "class Main \x7b function void main() \x7b do Output.print(\"ok\"); return; \x7d \x7d"

/-- Whether a class only has a function without variables that prints a text. -/
def isGreeting (cls : Jack.Class) : Bool :=
  match cls.vars, cls.subroutines with
  | [], [⟨.function, _, _, [], [], [.call (some _) _ [.string _ _] _, .leave none _]⟩] => true
  | _, _ => false

/-- A class that only prints a text has commands. -/
private theorem commands_of_isGreeting (runtime : Vm.RuntimeNames) {cls : Jack.Class}
    (greets : isGreeting cls = true) : ∃ code, cls.commands runtime = .ok code := by
  unfold isGreeting at greets
  split at greets
  · rename_i vars subroutines
    simp [Jack.Class.commands, Jack.ClassScope.ofClass, vars, subroutines,
      Jack.ClassScope.addSubroutine, Jack.subroutineCommands, Jack.Subroutine.commands,
      Jack.Scope.ofSubroutine, Jack.SymbolTable.declareAll, Jack.bodyCommands, Jack.Stmt.commands,
      Jack.Scope.callee, Jack.Scope.lookup?, Jack.SymbolTable.get?, Jack.argumentCommands,
      Jack.Expr.commands, bind, Except.bind, pure, Except.pure]
  · contradiction

/-- A class that prints a text gives the program of the text of its commands. -/
theorem greeting_build_eq_translate :
    ∃ text, compileUnit {} greetingUnit = .ok text ∧
      (build {} [greetingUnit]).mapError (List.map Report.wording) =
        (translate {} [greetingUnit.withSource text]).mapError (List.map Report.wording) := by
  have greets : (Jack.readClass greetingUnit.source).toOption.any isGreeting = true := by
    decide +kernel
  obtain ⟨cls, read, greets⟩ := (Option.any_eq_true _ _).mp greets
  obtain ⟨code, made⟩ := commands_of_isGreeting ({} : Options).runtime greets
  have compiled : compileUnit {} greetingUnit = .ok (Vm.render code) := by
    refine SourceUnit.reporting_eq_ok.mpr (bind_eq_ok.mpr ⟨code, ?_, rfl⟩)
    exact bind_eq_ok.mpr ⟨cls, toOption_eq_some.mp read, made⟩
  have short : ∀ unit ∈ [greetingUnit], unit.source.length < Text.bound32 :=
    List.forall_mem_singleton.mpr (by decide)
  have named : ({} : Options).runtime.Named :=
    ⟨by decide, by decide, by decide, by decide,
      by decide⟩
  have agreed := build_eq_translate named short (.cons compiled .nil)
  exact ⟨_, compiled, agreed⟩

end Programs

end JackToolchain
