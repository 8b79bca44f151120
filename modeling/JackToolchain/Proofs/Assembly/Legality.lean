import JackToolchain.Proofs.Assembly.Reading
import JackToolchain.Proofs.Assembly.Variables

/-!
# Legal instructions

An instruction is legal if the reader accepts its text: a number that can be loaded, a symbol of
symbol characters, or a computation of the characters of the instruction set. A legal instruction is
read from its text, and a program of legal instructions from its lines.
-/
namespace JackToolchain.Assembly

open Machine
open Text (Legible cleaned isBlank)

/-- Instructions whose text is read as the instruction. -/
def Instruction.Legal : Instruction → Prop
  | .address value => value ≤ maxAddress
  | .symbol name | .label name => isSymbol name.toList = true
  | .compute dest comp jump => isField dest ∧ isField comp ∧ isField jump ∧ comp ≠ ""

section Symbols

variable {text : List Char}

/-- The characters of a symbol are visible, and they are no slashes. -/
theorem visible_of_isSymbol (own : isSymbol text = true) :
    ∀ c ∈ text, c ≠ '/' ∧ isBlank c = false := by
  intro c member
  have char := List.all_eq_true.mp (of_isSymbol own).1 c member
  refine ⟨?_, (of_isSymbolChar char).2⟩
  rintro rfl
  contradiction

/-- A symbol is read as it is. -/
theorem readSymbol_eq (own : isSymbol text = true) (line : String) :
    readSymbol line text = .ok (String.ofList text) := if_pos own

/-- A symbol is no number. -/
theorem readDecimal?_eq_none (own : isSymbol text = true) : Text.readDecimal? text = none := by
  rw [Text.readDecimal?, if_neg]
  rw [(of_isSymbol own).2]
  simp

end Symbols

section Legal

variable {instruction : Instruction}

/-- A legal instruction stands on one line. -/
theorem Instruction.Legal.readable (legal : instruction.Legal) : instruction.Readable := by
  have whole {name : String} (own : isSymbol name.toList = true) : '\n' ∉ name.toList :=
    fun member => absurd (visible_of_isSymbol own _ member).2 (by decide)
  cases instruction with
  | address value => trivial
  | symbol name => exact whole legal
  | label name => exact whole legal
  | compute dest comp jump => exact legal

/-- A text that starts with a mark stands on a line as it is if nothing in it is white space or a
slash. -/
private theorem legible_cons {mark : Char} {text : List Char}
    (marked : mark ≠ '/' ∧ isBlank mark = false)
    (visible : ∀ c ∈ text, c ≠ '/' ∧ isBlank c = false) : Legible (mark :: text) := by
  have all : ∀ c ∈ mark :: text, c ≠ '/' ∧ isBlank c = false :=
    List.forall_mem_cons.mpr ⟨marked, visible⟩
  exact .of_visible (List.cons_ne_nil _ _) (bare_of_notMem fun member => (all _ member).1 rfl)
    fun c member => (all c member).2

/-- The text of a legal instruction stands on a line as it is. -/
theorem Instruction.Legal.legible (legal : instruction.Legal) :
    Legible instruction.text.toList := by
  cases instruction with
  | address value =>
    rw [toList_text_address]
    exact legible_cons (by decide) fun c member => visible_of_mem_toDigits member
  | symbol name =>
    rw [toList_text_symbol]
    exact legible_cons (by decide) (visible_of_isSymbol legal)
  | label name =>
    rw [toList_text_label]
    exact legible_cons (by decide) (List.forall_mem_append.mpr
      ⟨visible_of_isSymbol legal, List.forall_mem_singleton.mpr (by decide)⟩)
  | compute dest comp jump => exact legible_text_compute legal

/-- A legal instruction is read from its text. -/
theorem Instruction.Legal.read_text (legal : instruction.Legal) :
    Instruction.read instruction.text = .ok instruction := by
  rw [← String.ofList_toList (s := instruction.text)]
  cases instruction with
  | address value =>
    have small : value ≤ maxAddress := legal
    rw [toList_text_address, read_at, readAddress, Text.readDecimal?_toDigits]
    dsimp only
    rw [if_pos small]
  | symbol name =>
    rw [toList_text_symbol, read_at, readAddress, readDecimal?_eq_none legal, readSymbol_eq legal,
      String.ofList_toList]
    rfl
  | label name =>
    rw [toList_text_label, read_label, readLabel, if_pos List.getLast?_concat,
      List.dropLast_concat, readSymbol_eq legal, String.ofList_toList]
    rfl
  | compute dest comp jump =>
    rw [String.ofList_toList]
    exact read_text_compute legal

/-- A legal instruction is read as it is. -/
theorem Instruction.Legal.reread?_eq (legal : instruction.Legal) :
    instruction.reread? = some instruction := by
  rw [Instruction.reread?, legal.legible.cleaned_eq, String.ofList_toList]
  exact congrArg Except.toOption legal.read_text

/-- A program of legal instructions is read from its lines. -/
theorem readProgram_linesText {lines : List Line} (some : lines ≠ [])
    (readable : ∀ line ∈ lines, line.Readable)
    (legal : ∀ instruction ∈ codeOf lines, instruction.Legal) :
    ∃ nodes, readProgram (linesText lines ++ "\n") = .ok nodes ∧
      instructionsOf nodes = codeOf lines :=
  readProgram_of_reread some readable
    (List.forall₂_same.mpr fun instruction member => (legal instruction member).reread?_eq)

end Legal

/-! ## Names -/

/-- A name that is read as it is written, if it is read at all: nothing in it starts a comment, no
white space ends it, and it is no number. -/
structure Written (name : String) : Prop where
  /-- It holds no comment mark. -/
  bare : ¬ ['/', '/'] <:+: name.toList
  /-- It does not end in white space. -/
  stop : ∀ c, name.toList.getLast? = some c → isBlank c = false
  /-- It does not consist of digits. -/
  noNumber : name.toList.all Char.isDigit = false

section Names

variable {name : String} {read : Instruction}

/-- A symbol is read as it is written. -/
theorem Written.of_isSymbol (own : isSymbol name.toList = true) : Written name where
  bare := bare_of_notMem fun slash => (visible_of_isSymbol own _ slash).1 rfl
  stop := fun c last => (visible_of_isSymbol own c (List.mem_of_mem_getLast? last)).2
  noNumber := (JackToolchain.Assembly.of_isSymbol own).2

/-- What loads a name that is read as it is written is read as it is. -/
theorem Written.read_symbol (written : Written name)
    (accepted : (Instruction.symbol name).reread? = some read) : read = .symbol name := by
  have whole : Text.trimEnd (Text.uncommented name.toList) = name.toList := by
    rw [Text.uncommented_eq_self written.bare, Text.trimEnd_eq_self written.stop]
  rcases reread?_symbol accepted with ⟨value, -, -, digits⟩ | ⟨same, -⟩
  · rw [whole, written.noNumber] at digits
    contradiction
  · rw [same, whole, String.ofList_toList]

/-- A label with a name that is read as it is written is read as it is. -/
theorem Written.read_label (written : Written name)
    (accepted : (Instruction.label name).reread? = some read) : read = .label name := by
  have bare : ¬ ['/', '/'] <:+: name.toList ++ [')'] :=
    Text.bare_append (by decide) written.bare (bare_of_notMem (by simp))
  have stop (c : Char) (last : (name.toList ++ [')']).getLast? = some c) : isBlank c = false := by
    rw [List.getLast?_concat] at last
    obtain rfl := Option.some.inj last
    decide
  obtain ⟨-, same, -⟩ := reread?_label accepted
  rw [same, Text.uncommented_eq_self bare, Text.trimEnd_eq_self stop, List.dropLast_concat,
    String.ofList_toList]

end Names

/-! ## Symbols of instructions that are read back -/

section Symbols

variable {code others : List Instruction} {name : String}

/-- If the labels of a program are read as they are written, then they are the labels of the program
that is read. -/
theorem labelsOf_reread (readable : ∀ instruction ∈ code, instruction.Readable)
    (labels : ∀ name ∈ labelsOf code, Written name)
    (reread : List.Forall₂ (fun written read => written.reread? = some read) code others) :
    labelsOf others = labelsOf code := by
  induction reread with
  | nil => rfl
  | @cons written read code others own _ ih =>
    obtain ⟨ownReadable, restReadable⟩ := List.forall_mem_cons.mp readable
    cases written with
    | address value =>
      obtain ⟨rfl, -⟩ := reread?_address own
      exact ih restReadable labels
    | symbol name =>
      rcases reread?_symbol own with ⟨value, rfl, -⟩ | ⟨rfl, -⟩ <;> exact ih restReadable labels
    | compute dest comp jump =>
      obtain rfl := Option.some.inj (own.symm.trans (reread?_compute ownReadable))
      exact ih restReadable labels
    | label name =>
      obtain ⟨written, restLabels⟩ := List.forall_mem_cons.mp labels
      obtain rfl := written.read_label own
      exact congrArg (name :: ·) (ih restReadable restLabels)

/-- The program that is read has as many words, and it does not load more symbols. -/
theorem counts_reread (readable : ∀ instruction ∈ code, instruction.Readable)
    (reread : List.Forall₂ (fun written read => written.reread? = some read) code others) :
    size others = size code ∧ (symbolsOf others).length ≤ (symbolsOf code).length := by
  induction reread with
  | nil => exact ⟨rfl, Nat.le_refl 0⟩
  | @cons written read code others own _ ih =>
    obtain ⟨ownReadable, restReadable⟩ := List.forall_mem_cons.mp readable
    obtain ⟨words, symbols⟩ := ih restReadable
    cases written with
    | address value =>
      obtain ⟨rfl, -⟩ := reread?_address own
      exact ⟨congrArg Nat.succ words, symbols⟩
    | symbol name =>
      rcases reread?_symbol own with ⟨value, rfl, -⟩ | ⟨rfl, -⟩
      · exact ⟨congrArg Nat.succ words, Nat.le_succ_of_le symbols⟩
      · exact ⟨congrArg Nat.succ words, Nat.succ_le_succ symbols⟩
    | compute dest comp jump =>
      obtain rfl := Option.some.inj (own.symm.trans (reread?_compute ownReadable))
      exact ⟨congrArg Nat.succ words, symbols⟩
    | label name =>
      obtain ⟨-, rfl, -⟩ := reread?_label own
      exact ⟨words, symbols⟩

/-- A symbol that is read as it is written is loaded by the program that is read. -/
theorem mem_symbolsOf_reread (written : Written name) (loaded : name ∈ symbolsOf code)
    (reread : List.Forall₂ (fun written read => written.reread? = some read) code others) :
    name ∈ symbolsOf others := by
  obtain ⟨instruction, inside, symbol⟩ := List.mem_filterMap.mp loaded
  obtain ⟨other, there, own⟩ := exists_mem_right reread inside
  cases instruction with
  | symbol name =>
    obtain rfl := Option.some.inj symbol
    obtain rfl := written.read_symbol own
    exact List.mem_filterMap.mpr ⟨_, there, rfl⟩
  | _ => contradiction

end Symbols

end JackToolchain.Assembly
