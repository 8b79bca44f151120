import JackToolchain.Proofs.Assembly.Legality
import JackToolchain.Proofs.Assembly.Reference

/-!
# Words of address instructions

The processor loads a word into its address register if the top bit of the word is clear. The
reader keeps that bit clear in a number, but nothing looks at the address of a symbol. A program
may fill the memory of instructions to its last word, and then a label behind that word has the
address 2^15; a program with very many variables runs past that address too. In these two cases,
and in no others, an address instruction is executed as a computation.
-/
namespace JackToolchain.Assembly

open Machine

/-! ## Numbers -/

/-- Whether an instruction loads a number or the address of a symbol. -/
def Instruction.isLoad : Instruction → Bool
  | .address _ | .symbol _ => true
  | _ => false

/-- A number that is read can be loaded. -/
theorem le_maxAddress_of_read {line : String} {value : Nat}
    (read : Instruction.read line = .ok (.address value)) : value ≤ maxAddress := by
  unfold Instruction.read at read
  split at read
  · unfold readAddress at read
    split at read
    · split at read
      · rename_i small
        obtain rfl := Instruction.address.inj (Except.ok.inj read)
        exact small
      · contradiction
    · obtain ⟨name, -, symbol⟩ := bind_eq_ok.mp read
      cases symbol
  · unfold readLabel at read
    split at read
    · obtain ⟨name, -, label⟩ := bind_eq_ok.mp read
      cases label
    · contradiction
  · unfold readCompute at read
    dsimp only at read
    split at read
    · contradiction
    · cases read

/-- All numbers of a program that is read can be loaded. -/
theorem le_maxAddress_of_readProgram {source : String} {nodes : List (Spanned Instruction)}
    (read : readProgram source = .ok nodes) :
    ∀ value, .address value ∈ instructionsOf nodes → value ≤ maxAddress := by
  unfold readProgram at read
  generalize Text.items source = items at read
  have each := mapM_eq_ok.mp read
  clear read
  induction each with
  | nil => exact fun value member => by contradiction
  | @cons item node items nodes own others ih =>
    intro value member
    rcases List.mem_cons.mp member with same | later
    · apply @le_maxAddress_of_read item.node
      split at own
      · rename_i instruction found
        obtain rfl := Except.ok.inj own
        rw [found, same]
      · contradiction
    · exact ih value later

/-! ## Symbols -/

section Symbols

variable {code : List Instruction} {name : String} {value : Nat}

/-- Whether the address of a symbol does not fit into an address instruction: it is a label behind
a program that fills its memory, or a variable behind too many others. -/
def LiesBehind (code : List Instruction) (name : String) : Prop :=
  name ∉ predefined.map Prod.fst ∧
    (name ∈ labelsOf code ∧ size (code.takeWhile (· ≠ .label name)) = romSize ∨
      name ∉ labelsOf code ∧ 32752 ≤ variablesBefore code name)

/-- Whether an instruction loads the address of a symbol that does not fit into it. -/
def Instruction.Overruns (code : List Instruction) : Instruction → Prop
  | .symbol name => LiesBehind code name
  | _ => False

/-- The address of a symbol fits into an address instruction unless the symbol lies behind. -/
theorem symbolValue?_le_iff (fits : size code ≤ romSize)
    (known : symbolValue? code name = some value) :
    value ≤ maxAddress ↔ ¬ LiesBehind code name := by
  have memory : romSize = 32768 := rfl
  have largest : maxAddress = 32767 := rfl
  have front := size_takeWhile_le code (· ≠ .label name)
  unfold symbolValue? at known
  split at known
  · rename_i address listed
    have low : ∀ row ∈ predefined, row.2.toNat ≤ maxAddress := by decide
    have member := mem_predefined listed
    obtain rfl := Option.some.inj known
    have named : name ∈ predefined.map Prod.fst := List.mem_map.mpr ⟨_, member, rfl⟩
    exact iff_of_true (low _ member) fun behind => behind.1 named
  · rename_i unlisted
    have foreign := notMem_predefined unlisted
    split at known
    · rename_i isLabel
      have counted := Option.some.inj known
      simp only [LiesBehind, foreign, isLabel, not_false_eq_true, not_true_eq_false, true_and,
        false_and, or_false]
      omega
    · rename_i noLabel
      split at known
      · have counted := Option.some.inj known
        simp only [LiesBehind, foreign, noLabel, not_false_eq_true, true_and, false_and, false_or]
        omega
      · contradiction

end Symbols

/-! ## Execution -/

section Execution

variable {word : Word} {nodes : List (Spanned Instruction)} {program : Program}

/-- A word above the addresses is executed as a computation. -/
theorem execute_above (large : maxAddress < word.toNat) (cpu : Cpu) :
    cpu.execute word = cpu.executeCompute word := by
  have below := word.toNat_lt
  have largest : maxAddress = 32767 := rfl
  have set := and_bit_ne_zero word 15 (by decide)
  have top : word.bit 15 = true := by
    rw [Word.bit, Nat.testBit_eq_decide_div_mod_eq, decide_eq_true_eq]
    omega
  rw [top] at set
  have high : (word &&& 0x8000 == 0) = false := by simpa using set
  rw [Cpu.execute, high, if_neg Bool.false_ne_true]

/-- The word of an instruction of an assembled program stands at its place. -/
theorem getElem?_words (assembled : assembleInstructions nodes = .ok program) {place : Nat}
    {instruction : Instruction}
    (there : (worded (instructionsOf nodes))[place]? = some instruction) :
    ∃ word, program.words[place]? = some word ∧
      instruction.word? program.symbols.address? = some word := by
  have words := congrArg (·[place]?) (words_of_assembleInstructions assembled)
  simp only [List.getElem?_map, there, Option.map_some] at words
  obtain ⟨word, found, own⟩ := Option.map_eq_some_iff.mp words
  rw [Array.getElem?_toList] at found
  exact ⟨word, found, own.symm⟩

/-- The word of an address instruction of an assembled source is the number or the address of the
symbol. The processor loads it, unless the address lies behind what an address instruction can
hold: then the processor computes. -/
theorem loads_iff_of_assemble {source : String} (assembled : assemble source = .ok program) :
    ∃ nodes, readProgram source = .ok nodes ∧ ∀ (place : Nat) (instruction : Instruction),
      (worded (instructionsOf nodes))[place]? = some instruction → instruction.isLoad = true →
        ∃ word, program.words[place]? = some word ∧
          wordValue? (instructionsOf nodes) instruction = some word.toNat ∧
          (¬ instruction.Overruns (instructionsOf nodes) → word.toNat ≤ maxAddress ∧
            ∀ cpu : Cpu, cpu.execute word =
              { cpu with a := word, pc := cpu.pc + 1, steps := cpu.steps + 1 }) ∧
          (instruction.Overruns (instructionsOf nodes) → maxAddress < word.toNat ∧
            ∀ cpu : Cpu, cpu.execute word = cpu.executeCompute word) := by
  obtain ⟨nodes, read, made⟩ := bind_eq_ok.mp assembled
  refine ⟨nodes, read, fun place instruction there isLoad => ?_⟩
  have member := List.mem_of_mem_filter (List.mem_of_getElem? there)
  have numbers := le_maxAddress_of_readProgram read
  have largest : maxAddress = 32767 := rfl
  obtain ⟨word, found, own⟩ := getElem?_words made there
  have inRange : ∀ value, instruction = .address value → value < 65536 := by
    rintro value rfl
    exact Nat.lt_of_le_of_lt (numbers value member) (by decide)
  have value := toNat_word? made inRange
  rw [own, Option.map_some] at value
  have bounded : word.toNat ≤ maxAddress ↔ ¬ instruction.Overruns (instructionsOf nodes) := by
    cases instruction with
    | address number =>
      obtain same : word.toNat = number := Option.some.inj value
      rw [same]
      exact iff_of_true (numbers number member) id
    | symbol name =>
      have fits := (assemblable_of_assembleInstructions made).fits
      exact symbolValue?_le_iff fits value.symm
    | compute dest comp jump => contradiction
    | label name => contradiction
  refine ⟨word, found, value.symm, fun low => ?_, fun behind => ?_⟩
  · have small := bounded.mpr low
    exact ⟨small, execute_load small⟩
  · have large : maxAddress < word.toNat := by
      by_contra small
      exact bounded.mp (by omega) behind
    exact ⟨large, execute_above large⟩

end Execution

/-! ## A full memory -/

section Full

/-- The lines of a program of `count` computations, the address of a label and the label behind
all. -/
def fullLines (count : Nat) : List Line :=
  List.replicate count (.code (.compute "" "0" "")) ++
    [.code (.symbol "END"), .code (.label "END")]

/-- The text of such a program. -/
def fullSource (count : Nat) : String := linesText (fullLines count) ++ "\n"

variable {count : Nat}

/-- The instructions of such a program. -/
theorem codeOf_fullLines : codeOf (fullLines count) =
    List.replicate count (.compute "" "0" "") ++ [.symbol "END", .label "END"] := by
  rw [codeOf, fullLines, List.filterMap_append, List.filterMap_replicate]
  rfl

/-- Each of a number of computations takes one word. -/
theorem size_replicate : size (List.replicate count (.compute "" "0" "")) = count := by
  induction count with
  | zero => rfl
  | succ count ih => exact congrArg Nat.succ ih

/-- The address instruction of such a program stands behind its computations. -/
theorem getElem?_worded_full :
    (worded (codeOf (fullLines count)))[count]? = some (.symbol "END") := by
  have computations : (List.replicate count (Instruction.compute "" "0" "")).filter
      (fun instruction => instruction.labelName?.isNone) =
        List.replicate count (.compute "" "0" "") := by
    rw [List.filter_replicate]
    exact if_pos rfl
  rw [codeOf_fullLines, worded, List.filter_append, computations,
    List.getElem?_append_right (by rw [List.length_replicate]), List.length_replicate, Nat.sub_self]
  rfl

/-- The label of such a program has the number of all words. -/
theorem symbolValue?_full :
    symbolValue? (codeOf (fullLines count)) "END" = some (count + 1) := by
  have foreign : predefined.lookup "END" = none := by decide
  have defined : "END" ∈ labelsOf (codeOf (fullLines count)) := by
    rw [codeOf_fullLines, labelsOf, List.filterMap_append]
    exact List.mem_append_right _ List.mem_cons_self
  have front : (codeOf (fullLines count)).takeWhile (· ≠ .label "END") =
      List.replicate count (.compute "" "0" "") ++ [.symbol "END"] := by
    rw [codeOf_fullLines, List.takeWhile_append_of_pos]
    · rfl
    · intro instruction member
      rw [List.eq_of_mem_replicate member]
      rfl
  simp only [symbolValue?, foreign, defined, if_true, front, size_append, size_replicate]
  rfl

/-- Such a program is assembled if it fits into the program memory. -/
theorem fullSource_assembled (fits : count < romSize) :
    ∃ nodes program, readProgram (fullSource count) = .ok nodes ∧
      instructionsOf nodes = codeOf (fullLines count) ∧
      assembleInstructions nodes = .ok program := by
  have own : isSymbol "END".toList = true := by decide
  have legal : ∀ instruction ∈ codeOf (fullLines count), instruction.Legal := by
    rw [codeOf_fullLines]
    refine List.forall_mem_append.mpr ⟨fun instruction member => ?_, ?_⟩
    · rw [List.eq_of_mem_replicate member]
      exact ⟨by decide, by decide, by decide, by decide⟩
    · exact List.forall_mem_cons.mpr ⟨own, List.forall_mem_singleton.mpr own⟩
  have readable : ∀ line ∈ fullLines count, line.Readable := by
    intro line member
    cases line with
    | code instruction =>
      exact (legal instruction (List.mem_filterMap.mpr ⟨_, member, rfl⟩)).readable
    | comment text => simp [fullLines, List.mem_replicate] at member
  obtain ⟨nodes, read, same⟩ := readProgram_linesText (by simp [fullLines]) readable legal
  have labels : labelsOf (instructionsOf nodes) = ["END"] := by
    rw [same, codeOf_fullLines, labelsOf, List.filterMap_append, List.filterMap_replicate]
    rfl
  have encodable : (instructionsOf nodes).all Instruction.isEncodable = true := by
    rw [same, codeOf_fullLines, List.all_append, List.all_replicate]
    simp only [show Instruction.isEncodable (.compute "" "0" "") = true by decide]
    split <;> rfl
  have words : size (instructionsOf nodes) ≤ romSize := by
    rw [same, codeOf_fullLines, size_append, size_replicate]
    exact fits
  obtain ⟨program, assembled⟩ := assembleInstructions_accepts (by rw [labels]; decide)
    (by rw [labels]; decide) encodable words
  exact ⟨nodes, program, read, same, assembled⟩

/-- A program that fills the memory ends with the word 2^15 for its last address, which the
processor does not load. -/
theorem fullSource_computes : ∃ nodes program,
    readProgram (fullSource 32767) = .ok nodes ∧ assemble (fullSource 32767) = .ok program ∧
      (worded (instructionsOf nodes))[32767]? = some (.symbol "END") ∧
      program.words[32767]? = some 0x8000 ∧
      ∀ cpu : Cpu, cpu.execute 0x8000 = cpu.executeCompute 0x8000 ∧
        (cpu.execute 0x8000).a = cpu.a := by
  obtain ⟨nodes, program, read, same, assembled⟩ := @fullSource_assembled 32767 (by decide)
  have there : (worded (instructionsOf nodes))[32767]? = some (.symbol "END") := by
    rw [same]
    exact getElem?_worded_full
  obtain ⟨word, found, own⟩ := getElem?_words assembled there
  have value := @toNat_word? nodes program assembled (.symbol "END") (by simp)
  rw [own, same, wordValue?, symbolValue?_full, Option.map_some] at value
  obtain rfl : word = 0x8000 := UInt16.toNat_inj.mp (Option.some.inj value)
  have computes (cpu : Cpu) : cpu.execute 0x8000 = cpu.executeCompute 0x8000 :=
    execute_above (by decide) cpu
  refine ⟨nodes, program, read, bind_eq_ok.mpr ⟨nodes, read, assembled⟩, there, found,
    fun cpu => ⟨computes cpu, ?_⟩⟩
  rw [computes cpu]
  rfl

/-- In a short program the address of the label behind it is loaded. -/
theorem fullSource_loads : ∃ program word, assemble (fullSource 2) = .ok program ∧
    program.words[2]? = some word ∧ word.toNat = 3 ∧
    ∀ cpu : Cpu, cpu.execute word =
      { cpu with a := word, pc := cpu.pc + 1, steps := cpu.steps + 1 } := by
  obtain ⟨nodes, program, read, same, made⟩ := @fullSource_assembled 2 (by decide)
  have assembled : assemble (fullSource 2) = .ok program := bind_eq_ok.mpr ⟨nodes, read, made⟩
  obtain ⟨others, readAgain, loads⟩ := loads_iff_of_assemble assembled
  obtain rfl := Except.ok.inj (read.symm.trans readAgain)
  rw [same] at loads
  have value := @symbolValue?_full 2
  obtain ⟨word, found, own, load, -⟩ := loads 2 (.symbol "END") getElem?_worded_full rfl
  have inFront : ¬ LiesBehind (codeOf (fullLines 2)) "END" :=
    (symbolValue?_le_iff (by decide) value).mp (by decide)
  exact ⟨program, word, assembled, found, Option.some.inj (own.symm.trans value),
    (load inFront).2⟩

end Full

end JackToolchain.Assembly
