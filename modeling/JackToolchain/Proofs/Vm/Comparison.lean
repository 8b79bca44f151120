import JackToolchain.Proofs.Machine.Order
import JackToolchain.Proofs.Vm.Block
import JackToolchain.Vm.Assembly

/-!
# Comparisons of signed numbers

The instructions of a comparison decide by the sign of the difference of the two words, which wraps.
`exists_compared` says what they leave for every two words: the right truth value for equality, and
for the order the right one exactly if the difference fits into a word. Words that are far apart on
the two sides of zero are put in the wrong order (`far_apart_misjudged`).
-/
namespace JackToolchain.Vm

open Assembly (Instruction)
open Machine

/-- The comparison of signed numbers that an operation stands for, with the lower word first. -/
def Operation.holds : Operation → Word → Word → Bool
  | .eq, x, y => x.signed = y.signed
  | .gt, x, y => y.signed < x.signed
  | .lt, x, y => x.signed < y.signed
  | _, _, _ => false

/-- There are two truth values. -/
theorem truth_inj {left right : Bool} : truth left = truth right ↔ left = right := by
  cases left <;> cases right <;> decide

/-- What an operation that compares makes of two words is the truth value of the comparison exactly
if it compares for equality or the difference fits. -/
theorem result_eq_truth_iff {operation : Operation} (comparison : operation.isComparison = true)
    (x y : Word) :
    operation.result x y = truth (operation.holds x y) ↔ operation = .eq ∨ DifferenceFits x y := by
  cases operation <;> simp only [Operation.isComparison, Bool.false_eq_true] at comparison
  case eq =>
    have same : (x - y).signed = 0 ↔ x.signed = y.signed := by
      rw [signed_sub_eq_zero]
      exact ⟨congrArg Word.signed, fun equal => UInt16.toBitVec_inj.mp (BitVec.eq_of_toInt_eq equal)⟩
    simp only [Operation.result, Operation.holds, same, true_or]
  case gt =>
    rw [Operation.result, Operation.holds, truth_inj, decide_eq_decide, signed_sub_pos_iff]
    simp only [reduceCtorEq, false_or]
  case lt =>
    rw [Operation.result, Operation.holds, truth_inj, decide_eq_decide, signed_sub_neg_iff]
    simp only [reduceCtorEq, false_or]

/-- What the instructions of a comparison do to a processor with two words on the stack. -/
structure Compared (operation : Operation) (cpu later : Cpu) : Prop where
  /-- The stack is one word lower. -/
  stackPointer : later.read 0 = cpu.read 0 - 1
  /-- The word on top tells the sign of the wrapped difference. -/
  result : later.read (cpu.read 0 - 2) =
    operation.result (cpu.read (cpu.read 0 - 2)) (cpu.read (cpu.read 0 - 1))
  /-- It tells whether the comparison holds exactly if that is for equality or the difference
  fits. -/
  exact_iff : later.read (cpu.read 0 - 2) =
      truth (operation.holds (cpu.read (cpu.read 0 - 2)) (cpu.read (cpu.read 0 - 1))) ↔
    operation = .eq ∨ DifferenceFits (cpu.read (cpu.read 0 - 2)) (cpu.read (cpu.read 0 - 1))
  /-- Every other cell keeps its word. -/
  others : ∀ place, cellOf place ≠ cellOf 0 → cellOf place ≠ cellOf (cpu.read 0 - 2) →
    later.read place = cpu.read place

/-- The word under the top of the stack is two cells below the stack pointer. -/
theorem under_top (cpu : Cpu) : Memory.stackPointer cpu.ram - 1 - 1 = cpu.read 0 - 2 := by
  change cpu.read 0 - 1 - 1 = cpu.read 0 - 2
  grind

/-- The effect of a comparison on the cells. -/
theorem compared_of_effect {operation : Operation} {cpu later : Cpu}
    (comparison : operation.isComparison = true) (upper : cellOf (cpu.read 0 - 1) ≠ cellOf 0)
    (lower : cellOf (cpu.read 0 - 2) ≠ cellOf 0)
    (left : later.ram = operation.effect cpu.ram) : Compared operation cpu later := by
  have binary : operation.isUnary = false := by
    cases operation <;> simp only [Operation.isComparison, Bool.false_eq_true] at comparison <;> rfl
  have lowered (place : Word) (apart : cellOf place ≠ cellOf 0) :
      (Memory.drop cpu.ram).read place = cpu.read place :=
    Memory.read_write.trans (if_neg apart.symm)
  have first := lowered _ lower
  have second : Memory.popped cpu.ram = cpu.read (cpu.read 0 - 1) := lowered _ upper
  have effect : later.ram = (Memory.drop cpu.ram).write (cpu.read 0 - 2)
      (operation.result (cpu.read (cpu.read 0 - 2)) (cpu.read (cpu.read 0 - 1))) := by
    rw [left, Operation.effect, binary, if_neg Bool.false_ne_true]
    simp only [Memory.stackPointer_drop, under_top, first, second]
  have reads (place : Word) : later.read place = Memory.read later.ram place := rfl
  have result : later.read (cpu.read 0 - 2) =
      operation.result (cpu.read (cpu.read 0 - 2)) (cpu.read (cpu.read 0 - 1)) := by
    rw [reads, effect, Memory.read_write_self]
  refine ⟨?_, result, ?_, fun place notPointer notResult => ?_⟩
  · rw [reads, effect, Memory.read_write, if_neg lower]
    exact Memory.read_write_self
  · rw [result]
    exact result_eq_truth_iff comparison _ _
  · rw [reads, effect, Memory.read_write, if_neg notResult.symm]
    exact lowered place notPointer

/-- The instructions of a comparison compare the words on top of the stack where they are placed. -/
theorem reaches_compared {operation : Operation} {done : String} {address : String → Word}
    {rom : Array Word} {place : Word} (comparison : operation.isComparison = true)
    (platform : Platform address) (held : Holds address rom place (operation.block done)) {cpu : Cpu}
    (there : At cpu rom place) (upper : cellOf (cpu.read 0 - 1) ≠ cellOf 0)
    (lower : cellOf (cpu.read 0 - 2) ≠ cellOf 0) :
    ∃ later, Reaches cpu later ∧ At later rom (place + UInt16.ofNat (size (operation.block done))) ∧
      Compared operation cpu later := by
  have apart : (Memory.stackPointer cpu.ram - 1 - 1).toNat % 32768 ≠ 0 := by
    rw [under_top]
    exact fun zero => lower (cellOf_eq_iff.mpr zero)
  obtain ⟨core, left, leads⟩ := leads_compare platform comparison apart held cpu.a cpu.d
  obtain ⟨steps, reached⟩ := leads cpu.steps
  rw [← there.eq_cpu] at reached
  exact ⟨_, reached, ⟨rfl, rfl, rfl⟩, compared_of_effect comparison upper lower left⟩

/-- The instructions of a comparison, wherever they are placed, take the two words on top of the
stack, none of which is the stack pointer itself, and leave a truth value. -/
theorem exists_compared {operation : Operation} (comparison : operation.isComparison = true)
    (layout : Layout) (unit : String) (numbering : Numbering) :
    ∃ block, (Command.operate operation).instructions layout unit numbering = .ok block ∧
      ∀ {address rom place}, Platform address → Holds address rom place block →
      ∀ cpu, At cpu rom place → cellOf (cpu.read 0 - 1) ≠ cellOf 0 →
        cellOf (cpu.read 0 - 2) ≠ cellOf 0 →
      ∃ later, Reaches cpu later ∧ At later rom (place + UInt16.ofNat (size block)) ∧
        Compared operation cpu later := by
  refine ⟨operation.block numbering.comparisonSymbol, rfl, ?_⟩
  intro address rom place platform held cpu there upper lower
  exact reaches_compared comparison platform held there upper lower

/-! ## A comparison on its own -/

/-- The addresses of a program that is one comparison. -/
def comparingAddress (name : String) : Word :=
  ((("Main$cmp$0", 11) :: Assembly.predefined).lookup name).getD 0

/-- The words of the program. -/
def comparingRom (operation : Operation) : Array Word :=
  ((operation.block "Main$cmp$0").filterMap (wordOf? comparingAddress)).toArray

/-- The processor at its start, with two words on the stack. -/
def comparing (operation : Operation) (x y : Word) : Cpu :=
  let memory : Memory := Vector.replicate ramSize 0
  Core.cpu ⟨((memory.write 0 258).write 256 x).write 257 y, 0, 0⟩ (comparingRom operation) 0 0

/-- The stack of the program. -/
theorem read_comparing (operation : Operation) (x y : Word) :
    (comparing operation x y).read 0 = 258 ∧ (comparing operation x y).read 256 = x ∧
      (comparing operation x y).read 257 = y := by
  have reads (place : Word) :
      (comparing operation x y).read place = Memory.read (comparing operation x y).ram place := rfl
  refine ⟨?_, ?_, ?_⟩
  · rw [reads, comparing, Core.cpu, Memory.read_write_of_ne (by decide),
      Memory.read_write_of_ne (by decide), Memory.read_write_self]
  · rw [reads, comparing, Core.cpu, Memory.read_write_of_ne (by decide), Memory.read_write_self]
  · rw [reads, comparing, Core.cpu, Memory.read_write_self]

/-- The symbols of the platform have their addresses in the program. -/
theorem platform_comparing : Platform comparingAddress := by
  unfold Platform
  decide +kernel

/-- The smaller one of two words near zero is found. -/
theorem near_judged :
    Operation.lt.isComparison = true ∧ DifferenceFits (-5) 3 ∧
      ∃ later, Reaches (comparing .lt (-5) 3) later ∧ At later (comparingRom .lt) 11 ∧
        later.read 0 = 257 ∧ later.read 256 = -1 := by
  obtain ⟨block, lowered, compares⟩ :=
    @exists_compared .lt (by decide) {} "Main" { scope := "Main" }
  obtain rfl := Except.ok.inj lowered
  have held : Holds comparingAddress (comparingRom .lt) 0 (Operation.lt.block "Main$cmp$0") := by
    decide +kernel
  obtain ⟨pointer, lower, upper⟩ := read_comparing .lt (-5) 3
  obtain ⟨later, reached, there, compared⟩ := compares platform_comparing held
    (comparing .lt (-5) 3) ⟨rfl, rfl, rfl⟩ (by rw [pointer]; decide) (by rw [pointer]; decide)
  have fits : DifferenceFits (-5) 3 := by
    unfold DifferenceFits
    decide
  have top := compared.stackPointer
  have exact_iff := compared.exact_iff
  rw [pointer] at top
  rw [pointer, show (258 : Word) - 2 = 256 from rfl, show (258 : Word) - 1 = 257 from rfl, lower,
    upper] at exact_iff
  exact ⟨rfl, fits, later, reached, there, top, exact_iff.mpr (.inr fits)⟩

/-- The greatest word is found not to be greater than minus one. -/
theorem far_apart_misjudged :
    (Command.operate .gt).instructions {} "Main" { scope := "Main" } =
        .ok (Operation.gt.block "Main$cmp$0") ∧
      Holds comparingAddress (comparingRom .gt) 0 (Operation.gt.block "Main$cmp$0") ∧
      (-1 : Word).signed < (32767 : Word).signed ∧
      ∃ later, Reaches (comparing .gt 32767 (-1)) later ∧ At later (comparingRom .gt) 11 ∧
        later.read 256 = 0 := by
  have held : Holds comparingAddress (comparingRom .gt) 0 (Operation.gt.block "Main$cmp$0") := by
    decide +kernel
  obtain ⟨pointer, lower, upper⟩ := read_comparing .gt 32767 (-1)
  obtain ⟨later, reached, there, compared⟩ := reaches_compared rfl platform_comparing held
    (⟨rfl, rfl, rfl⟩ : At (comparing .gt 32767 (-1)) _ 0) (by rw [pointer]; decide)
    (by rw [pointer]; decide)
  have result := compared.result
  rw [pointer, show (258 : Word) - 2 = 256 from rfl, show (258 : Word) - 1 = 257 from rfl, lower,
    upper] at result
  exact ⟨rfl, held, by decide, later, reached, there, result⟩

end JackToolchain.Vm
