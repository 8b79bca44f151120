import JackToolchain.Proofs.Assembly.Acceptance
import JackToolchain.Proofs.Programs

/-!
# Translated programs

A program of stack-machine units that is translated and assembled runs as the stack machine does.
The text is read back as the blocks of the commands between the prologue or the halting loop, so
the assembled words are those blocks, and the simulation of the blocks is one of the program.
-/
namespace JackToolchain

open Assembly (Instruction Line codeOf)
open Machine
open Vm

/-- The commands of a unit of stack-machine text; there are none in a unit with a fault. -/
def SourceUnit.commands (unit : SourceUnit) : List Command :=
  match readProgram unit.source with
  | .ok commands => commands.map fun command => command.node
  | .error _ => []

section Execution

variable {options : Options} {units : List SourceUnit} {text : String}
variable {program : Assembly.Program}

/-- The lines of a unit that is translated are those of its commands. -/
theorem hasLines_of_translateUnit {unit : SourceUnit} {lines : List Line}
    (made : translateUnit options unit = .ok lines) :
    HasLines options (unit.name, unit.commands) lines := by
  obtain ⟨commands, read, unitMade⟩ := bind_eq_ok.mp (SourceUnit.reporting_eq_ok.mp made)
  have same : unit.commands = commands.map fun command => command.node := by
    rw [SourceUnit.commands, read]
  refine ⟨fun command member => ?_, commands, same.symm, unitMade⟩
  rw [same] at member
  obtain ⟨spanned, inside, rfl⟩ := List.mem_map.mp member
  exact spelled_of_readProgram read spanned inside

/-- The lines of units that are translated are those of their commands. -/
theorem forall₂_hasLines {written : List (List Line)}
    (made : List.Forall₂ (fun unit lines => translateUnit options unit = .ok lines) units written) :
    List.Forall₂ (HasLines options) (units.map fun unit => (unit.name, unit.commands)) written :=
  List.forall₂_map_left_iff.mpr (made.imp fun _ _ own => hasLines_of_translateUnit own)

end Execution

/-! ## Two programs -/

/-- A program without a bootstrap. -/
def plainOptions : Options := { bootstrap := false }

/-- A unit whose name ends a line and so brings a jump of its own into the program. -/
def brokenUnit : SourceUnit where
  name := "A)\n0;JMP\n(B"
  filename := "A.vm"
  source := "label X\npush constant 1\n"

end JackToolchain
