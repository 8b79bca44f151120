import JackToolchain.Proofs.Jack.Spelling
import JackToolchain.Proofs.Vm.Lowering

/-!
# Classes that fit the machine

The standard memory map reaches 32768 words from a pointer, and a constant is at most 32767. A class
whose scopes, string literals and argument lists keep to that is compiled to commands whose numbers
are in range, so all of them have instructions.
-/
namespace JackToolchain.Jack

open Vm (Command RuntimeNames)

/-! ## Limits -/

/-- The largest number of arguments in a call: the receiver and the five words of a frame are
counted besides them in one constant. -/
def maxArguments : Nat := 32761

/-- An expression whose string literal or list of arguments, if it is one, has a length that the
machine can load. -/
def Expr.Modest : Expr → Prop
  | .string content _ => content.length ≤ maxConstant
  | .call _ _ args _ => args.length ≤ maxArguments
  | _ => True

/-- A class whose scopes have no more variables of a kind than a segment has words that commands
reach, and whose expressions are modest. -/
structure Class.Modest (cls : Class) : Prop where
  /-- The static variables and the fields. -/
  vars : ∀ storage, cls.vars.countP (fun item => item.storage = storage) ≤ maxConstant
  /-- The parameters of each subroutine. -/
  params : ∀ subroutine ∈ cls.subroutines, subroutine.params.length ≤ maxConstant
  /-- The local variables of each subroutine. -/
  locals : ∀ subroutine ∈ cls.subroutines, subroutine.locals.length ≤ maxConstant
  /-- The expressions. -/
  parts : ∀ part ∈ cls.parts, part.Modest

section Limits

variable {limit : Nat}

/-- A modest expression is bounded by what the machine can load. -/
theorem Expr.Bounded.of_modest {part : Expr} (bounded : part.Bounded limit)
    (modest : part.Modest) : part.Bounded maxConstant := by
  cases part with
  | string content span => exact ⟨modest, bounded.2⟩
  | call receiver name args span =>
    refine ⟨bounded.1, bounded.2.1, Nat.le_trans (Nat.succ_le_succ modest) ?_⟩
    exact Nat.le_of_ble_eq_true rfl
  | _ => exact bounded

/-- A modest class fits what the machine can load. -/
theorem Class.Fits.of_modest {cls : Class} (fits : cls.Fits limit) (modest : cls.Modest) :
    cls.Fits maxConstant := by
  refine ⟨fits.name, modest.vars, fits.varTypes, fun subroutine inside => ?_⟩
  have own := fits.subroutines subroutine inside
  refine ⟨own.name, modest.params subroutine inside, own.paramTypes,
    modest.locals subroutine inside, own.localTypes, fun part member => ?_⟩
  exact (own.body part member).of_modest
    (modest.parts part (List.mem_flatMap.mpr ⟨subroutine, inside, member⟩))

end Limits

/-! ## Commands -/

section Commands

variable {runtime : RuntimeNames} {scope : Scope} {code : List Command}

/-- Commands that have instructions with the standard memory map. -/
def AllInRange (code : List Command) : Prop := ∀ command ∈ code, command.InRange {}

/-- Every segment of variables has the numbers up to the largest constant. -/
theorem holds_segment (storage : Storage) {index : Nat} (small : index ≤ maxConstant) :
    storage.segment.Holds {} index := by
  cases storage with
  | static => trivial
  | _ => exact small

/-- A push or a pop of a known variable is in range. -/
theorem inRange_of_lookup? (fits : scope.Fits maxConstant) {name : String} {entry : Entry}
    (known : scope.lookup? name = some entry) :
    entry.push.InRange {} ∧ entry.pop.InRange {} := by
  have holds := holds_segment entry.storage (fits.known name entry known).1
  refine ⟨holds, ?_, holds⟩
  cases entry.storage <;> decide

/-- The commands of a string literal are in range. -/
theorem inRange_stringCommands {content : String}
    (fits : (Lexeme.string content).Fits maxConstant) :
    AllInRange (stringCommands runtime content) := by
  have one : (1 : Nat) ≤ ({} : Vm.Layout).maxConstant - Vm.frameSize := by decide
  have two : (2 : Nat) ≤ ({} : Vm.Layout).maxConstant - Vm.frameSize := by decide
  refine List.forall_mem_append.mpr ⟨?_, fun command member => ?_⟩
  · exact List.forall_mem_cons.mpr ⟨fits.1, List.forall_mem_singleton.mpr one⟩
  · obtain ⟨c, inside, own⟩ := List.mem_flatMap.mp member
    rcases List.mem_cons.mp own with rfl | own
    · exact fits.2 c inside
    · obtain rfl := List.mem_singleton.mp own
      exact two

/-- The receiver of a call is one word at most, and its command is in range. -/
theorem inRange_of_callee (fits : scope.Fits maxConstant) {receiver : Option Name} {name : Name}
    {callee : Callee} (made : scope.callee receiver name = .ok callee) :
    AllInRange callee.receiver ∧ callee.receiver.length ≤ 1 := by
  have none : AllInRange [] := fun command member => by contradiction
  obtain ⟨own, entry, rfl, known, rfl⟩ | ⟨own, rfl, -, rfl⟩ | ⟨-, rfl⟩ | ⟨-, rfl⟩ :=
    callee_cases made
  · exact ⟨List.forall_mem_singleton.mpr (inRange_of_lookup? fits known).1, Nat.le_refl 1⟩
  · exact ⟨none, Nat.zero_le 1⟩
  · exact ⟨List.forall_mem_singleton.mpr (Nat.zero_le 1), Nat.le_refl 1⟩
  · exact ⟨none, Nat.zero_le 1⟩

/-- The commands of a modest expression by itself are in range. -/
theorem inRange_of_own (fits : scope.Fits maxConstant) {part : Expr}
    (bounded : part.Bounded maxConstant) (modest : part.Modest) :
    AllInRange (part.own runtime scope) := by
  have known (name : String) : AllInRange ((scope.lookup? name).map Entry.push).toList := by
    cases known : scope.lookup? name with
    | none => exact fun command member => by contradiction
    | some entry => exact List.forall_mem_singleton.mpr (inRange_of_lookup? fits known).1
  cases part with
  | binary op left right span =>
    refine List.forall_mem_singleton.mpr ?_
    have two : (2 : Nat) ≤ ({} : Vm.Layout).maxConstant - Vm.frameSize := by decide
    cases op with
    | mul => exact two
    | div => exact two
    | _ => trivial
  | unary op operand span =>
    refine List.forall_mem_singleton.mpr ?_
    cases op <;> trivial
  | integer value span => exact List.forall_mem_singleton.mpr bounded
  | string content span => exact inRange_stringCommands bounded
  | boolean value span =>
    have zero : (0 : Nat) ≤ maxConstant := Nat.zero_le _
    have one : (1 : Nat) ≤ maxConstant := by decide
    cases value with
    | false => exact List.forall_mem_singleton.mpr zero
    | true => exact List.forall_mem_cons.mpr ⟨one, List.forall_mem_singleton.mpr trivial⟩
  | null span => exact List.forall_mem_singleton.mpr (Nat.zero_le maxConstant)
  | this span => exact List.forall_mem_singleton.mpr (Nat.zero_le 1)
  | «variable» name span => exact known name
  | element array index span =>
    have fetch : AllInRange [.operate .add, .pop .pointer 1, .push .that 0] := by
      unfold AllInRange
      decide
    exact List.forall_mem_append.mpr ⟨known array.node, fetch⟩
  | call receiver name args span =>
    rw [Expr.own]
    split
    · rename_i callee made
      obtain ⟨receiverInRange, one⟩ := inRange_of_callee fits made
      have few : args.length ≤ 32761 := modest
      have count : args.length + callee.receiver.length ≤ 32762 := by omega
      exact List.forall_mem_append.mpr ⟨receiverInRange, List.forall_mem_singleton.mpr count⟩
    · exact fun command member => by contradiction
  | group inner span => exact fun command member => by contradiction

/-- The commands that join statements are in range. -/
theorem inRange_of_joins (fits : scope.Fits maxConstant) {command : Command}
    (joins : Joins scope command) : command.InRange {} := by
  cases joins with
  | joint member =>
    have all : ∀ command ∈ joints, command.InRange {} := by decide
    exact all _ member
  | read known => exact (inRange_of_lookup? fits known).1
  | write known => exact (inRange_of_lookup? fits known).2
  | label member number => trivial
  | goto member number => trivial
  | ifGoto member number => trivial

/-- The commands of a modest class are in range. -/
theorem inRange_of_commands {cls : Class} (fits : cls.Fits maxConstant) (modest : cls.Modest)
    (made : cls.commands runtime = .ok code) : AllInRange code := by
  intro command member
  obtain ⟨known, subroutine, inside, scope, clsWord, fields, scopeFits, locals, arises⟩ :=
    arises_of_fits fits made member
  have own := fits.subroutines subroutine inside
  cases arises with
  | entry => exact locals
  | prologue member =>
    have all : AllInRange (prologue runtime known subroutine.kind) := by
      have one : (1 : Nat) ≤ ({} : Vm.Layout).maxConstant - Vm.frameSize := by decide
      have current : (Command.pop .pointer 0).InRange {} := by decide
      have receiver : (Command.push .argument 0).InRange {} := by decide
      cases subroutine.kind with
      | constructor =>
        exact List.forall_mem_cons.mpr ⟨fields, List.forall_mem_cons.mpr
          ⟨one, List.forall_mem_singleton.mpr current⟩⟩
      | method =>
        exact List.forall_mem_cons.mpr ⟨receiver, List.forall_mem_singleton.mpr current⟩
      | function => exact fun command member => by contradiction
    exact all command member
  | @computed part _ within computed =>
    exact inRange_of_own scopeFits (own.body part within)
      (modest.parts part (List.mem_flatMap.mpr ⟨subroutine, inside, within⟩)) command computed
  | joined joins => exact inRange_of_joins scopeFits joins

end Commands

end JackToolchain.Jack
