import JackToolchain.Assembly.Encoding
import JackToolchain.Proofs.Machine.Memory
import JackToolchain.Proofs.Machine.Runs
import Mathlib.Data.Nat.Bitwise

/-!
# Written computations

The assembler writes a computation as an expression over the registers and the arithmetic unit
computes by six control bits. `Operands.value` reads the expression, and `compute_encodeComp`
says that the bits which the assembler chooses for it compute that value. `jumps_encodeJump` says
the same of jumps: the jump bits accept the results that the written condition names. So one step of
the processor does what a compute instruction says (`step?_encodeCompute`).
-/
namespace JackToolchain.Machine

open Assembly (computations encodeComp? encodeDest? encodeDestInto encodeRegister? encodeJump?)

/-! ## Bits of words -/

/-- Whether a bit of a word is set; the lowest one is bit zero. -/
def Word.bit (word : Word) (place : Nat) : Bool := word.toNat.testBit place

/-- Shifting a bit down to the front and masking the rest reads that bit. -/
theorem shiftRight_and_one (word : Word) (place : Nat) (inside : place < 16) :
    ((word >>> UInt16.ofNat place) &&& 1 == 1) = word.bit place := by
  have shifted : ((word >>> UInt16.ofNat place) &&& 1).toNat = word.toNat / 2 ^ place % 2 := by
    have small : place % 65536 % 16 = place := by omega
    rw [UInt16.toNat_and, UInt16.toNat_shiftRight, UInt16.toNat_ofNat', Nat.shiftRight_eq_div_pow]
    simp [small, Nat.and_one_is_mod]
  rw [Word.bit, Nat.testBit_eq_decide_div_mod_eq, ← shifted, Bool.eq_iff_iff]
  simp only [beq_iff_eq, decide_eq_true_eq, ← UInt16.toNat_inj]
  rfl

/-- Masking everything but one bit leaves a word that is not zero exactly if the bit is set. -/
theorem and_bit_ne_zero (word : Word) (place : Nat) (inside : place < 16) :
    (word &&& UInt16.ofNat (2 ^ place) != 0) = word.bit place := by
  have small : 2 ^ place < 65536 := Nat.pow_lt_pow_right (by decide) inside
  have masked : (word &&& UInt16.ofNat (2 ^ place)).toNat =
      (word.toNat.testBit place).toNat * 2 ^ place := by
    rw [UInt16.toNat_and, UInt16.toNat_ofNat', Nat.mod_eq_of_lt small, Nat.and_two_pow]
  rw [Word.bit, bne, Bool.eq_iff_iff]
  simp [← UInt16.toNat_inj, masked]

/-- A bit of a word that is shifted down is a higher bit of the word. -/
theorem bit_shiftRight (word : Word) (places place : Nat) (inside : places < 16) :
    (word >>> UInt16.ofNat places).bit place = word.bit (places + place) := by
  have small : places % 65536 % 16 = places := by omega
  rw [Word.bit, UInt16.toNat_shiftRight, UInt16.toNat_ofNat', small, Nat.testBit_shiftRight,
    Word.bit]

/-- The sign of a word is its highest bit. -/
theorem signed_neg_iff (word : Word) : word.signed < 0 ↔ word.bit 15 = true := by
  have bound := word.toNat_lt
  have reading : word.signed =
      if 2 * word.toNat < 65536 then (word.toNat : Int) else word.toNat - 65536 := by
    rw [Word.signed, BitVec.toInt_eq_toNat_cond]
    rfl
  rw [reading, Word.bit, Nat.testBit_eq_decide_div_mod_eq, decide_eq_true_eq]
  split <;> omega

/-- The only word that stands for zero is zero. -/
theorem signed_eq_zero_iff (word : Word) : word.signed = 0 ↔ word = 0 := by
  constructor
  · intro none
    apply UInt16.toBitVec_inj.mp
    exact BitVec.eq_of_toInt_eq none
  · rintro rfl
    rfl

/-! ## Values -/

/-- The words of the registers that a computation is written over. -/
structure Operands where
  /-- The data register. -/
  d : Word
  /-- The address register. -/
  a : Word
  /-- The memory cell that the address register names. -/
  m : Word

/-- The word that a character of a computation stands for. -/
def Operands.word (operands : Operands) : Char → Word
  | 'D' => operands.d
  | 'A' => operands.a
  | 'M' => operands.m
  | '1' => 1
  | _ => 0

/-- The value of a mark in front of an operand. -/
def unaryValue (mark : Char) (x : Word) : Word :=
  match mark with
  | '!' => ~~~x
  | '-' => -x
  | _ => 0

/-- The value of a mark between two operands. -/
def binaryValue (mark : Char) (x y : Word) : Word :=
  match mark with
  | '+' => x + y
  | '-' => x - y
  | '&' => x &&& y
  | '|' => x ||| y
  | _ => 0

/-- The word that a written computation stands for. -/
def Operands.value (operands : Operands) : List Char → Word
  | [x] => operands.word x
  | [mark, x] => unaryValue mark (operands.word x)
  | [x, mark, y] => binaryValue mark (operands.word x) (operands.word y)
  | _ => 0

/-- Whether a character of a computation stands for a word. -/
def isOperand (c : Char) : Bool := ['0', '1', 'D', 'A', 'M'].contains c

/-- Whether a text is a computation: an operand, one with a mark in front or two with a mark between
them. -/
def isComputation : List Char → Bool
  | [x] => isOperand x
  | [mark, x] => ['-', '!'].contains mark && isOperand x
  | [x, mark, y] => isOperand x && ['+', '-', '&', '|'].contains mark && isOperand y
  | _ => false

/-- The arithmetic unit reads its control bits one by one. -/
theorem compute_eq (bits x y : Word) : compute bits x y =
    (let x := if bits.bit 5 then 0 else x
     let x := if bits.bit 4 then ~~~x else x
     let y := if bits.bit 3 then 0 else y
     let y := if bits.bit 2 then ~~~y else y
     let out := if bits.bit 1 then x + y else x &&& y
     if bits.bit 0 then ~~~out else out) := by
  have each (place : Nat) (inside : place < 16) := shiftRight_and_one bits place inside
  simp only [← each 5 (by decide), ← each 4 (by decide), ← each 3 (by decide),
    ← each 2 (by decide), ← each 1 (by decide), ← each 0 (by decide)]
  rfl

/-- The arithmetic unit looks at the six lowest bits only. -/
theorem compute_congr {left right : Word} (x y : Word)
    (same : ∀ place < 6, left.bit place = right.bit place) :
    compute left x y = compute right x y := by
  simp only [compute_eq, same 5 (by decide), same 4 (by decide), same 3 (by decide),
    same 2 (by decide), same 1 (by decide), same 0 (by decide)]

private theorem not_not_and_not (x y : Word) : ~~~(~~~x &&& ~~~y) = x ||| y := by
  apply UInt16.toBitVec_inj.mp
  simp [BitVec.not_and]

/-- The bits of every computation over the address register compute its value. -/
theorem compute_computations (operands : Operands) : ∀ row ∈ computations,
    compute row.2 operands.d operands.a = operands.value row.1.toList := by
  obtain ⟨d, a, m⟩ := operands
  simp only [computations, List.forall_mem_cons, List.not_mem_nil, false_implies, implies_true,
    and_true]
  refine ⟨?_, ?_, ?_, ?_, ?_, ?_, ?_, ?_, ?_, ?_, ?_, ?_, ?_, ?_, ?_, ?_, ?_, ?_, ?_, ?_, ?_, ?_,
    ?_⟩
  all_goals simp [compute_eq, Operands.value, Operands.word, unaryValue, binaryValue,
    not_not_and_not, Word.bit, Nat.testBit]
  all_goals grind [UInt16.not_eq_neg_sub, UInt16.and_comm, UInt16.or_comm]

/-- The letter that a computation over memory has in the table of those over `A`. -/
def overAddress (c : Char) : Char := if c = 'M' then 'A' else c

/-- Another letter stays as it is. -/
theorem overAddress_of_ne {c : Char} (other : c ≠ 'M') : overAddress c = c := if_neg other

/-- A computation without `A` has the value of its row in the table of computations over `A`,
taken over the memory cell. -/
theorem value_overAddress (operands : Operands) (text : List Char) (free : 'A' ∉ text) :
    Operands.value { operands with a := operands.m } (text.map overAddress) =
      operands.value text := by
  have letter (c : Char) (other : 'A' ≠ c) :
      Operands.word { operands with a := operands.m } (overAddress c) = operands.word c := by
    by_cases memory : c = 'M'
    · subst memory
      rfl
    · rw [overAddress_of_ne memory]
      unfold Operands.word
      split <;> simp_all
  have unary (c : Char) : unaryValue (overAddress c) = unaryValue c := by
    by_cases memory : c = 'M'
    · subst memory
      rfl
    · rw [overAddress_of_ne memory]
  have binary (c : Char) : binaryValue (overAddress c) = binaryValue c := by
    by_cases memory : c = 'M'
    · subst memory
      rfl
    · rw [overAddress_of_ne memory]
  match text with
  | [] => rfl
  | [x] =>
    simp only [List.mem_singleton] at free
    exact letter x free
  | [mark, x] =>
    simp only [List.mem_cons, List.not_mem_nil, or_false, not_or] at free
    simp only [List.map_cons, List.map_nil, Operands.value, unary, letter x free.2]
  | [x, mark, y] =>
    simp only [List.mem_cons, List.not_mem_nil, or_false, not_or] at free
    simp only [List.map_cons, List.map_nil, Operands.value, binary, letter x free.1,
      letter y free.2.2]
  | _ :: _ :: _ :: _ :: _ => rfl

/-- A text is a computation over memory exactly if it is one over `A` with the letter changed. -/
theorem isComputation_overAddress (text : List Char) :
    isComputation (text.map overAddress) = isComputation text := by
  have operand (c : Char) : isOperand (overAddress c) = isOperand c := by
    by_cases memory : c = 'M'
    · subst memory
      rfl
    · rw [overAddress_of_ne memory]
  have mark (marks : List Char) (noLetter : 'A' ∉ marks ∧ 'M' ∉ marks) (c : Char) :
      marks.contains (overAddress c) = marks.contains c := by
    by_cases memory : c = 'M'
    · subst memory
      simp [overAddress, noLetter]
    · rw [overAddress_of_ne memory]
  match text with
  | [] => rfl
  | [x] => exact operand x
  | [first, x] =>
    simp only [List.map_cons, List.map_nil, isComputation, operand, mark ['-', '!'] (by decide)]
  | [x, between, y] =>
    simp only [List.map_cons, List.map_nil, isComputation, operand,
      mark ['+', '-', '&', '|'] (by decide)]
  | _ :: _ :: _ :: _ :: _ => rfl

/-- What a table of pairs finds for a key stands in the table. -/
private theorem mem_of_lookup {key : String} {value : Word} {table : List (String × Word)}
    (found : table.lookup key = some value) : (key, value) ∈ table := by
  obtain ⟨before, after, rfl, _⟩ := List.lookup_eq_some_iff.mp found
  exact List.mem_append_right _ List.mem_cons_self

/-- The bits of a computation are those of its row, or over memory those of the row over `A` with
the highest bit. -/
theorem row_of_encodeComp {comp : String} {bits : Word} (encoded : encodeComp? comp = some bits) :
    (comp, bits) ∈ computations ∨
      ∃ low, 'A' ∉ comp.toList ∧
        (String.ofList (comp.toList.map overAddress), low) ∈ computations ∧
        bits = 0b1000000 ||| low := by
  unfold encodeComp? at encoded
  by_cases memory : 'M' ∈ comp.toList
  · by_cases free : 'A' ∈ comp.toList
    · simp [memory, free] at encoded
    · simp only [memory, free, ↓reduceIte, Option.map_eq_some_iff] at encoded
      obtain ⟨low, found, rfl⟩ := encoded
      exact .inr ⟨low, free, mem_of_lookup found, rfl⟩
  · simp only [memory, ↓reduceIte] at encoded
    exact .inl (mem_of_lookup encoded)

/-- The bits of a computation over memory, and those of the row over `A`. -/
theorem bit_overMemory (low : Word) (place : Nat) :
    (0b1000000 ||| low : Word).bit place = ((64 : Nat).testBit place || low.bit place) := by
  simp only [Word.bit, UInt16.toNat_or, Nat.testBit_or]
  rfl

/-- The bits of a computation are seven, and they compute the value that is written: the highest
one says whether the second operand is the memory cell. -/
theorem compute_encodeComp {comp : String} {bits : Word} (encoded : encodeComp? comp = some bits) :
    bits.toNat < 128 ∧ ∀ operands : Operands,
      compute bits operands.d (if bits.bit 6 then operands.m else operands.a) =
        operands.value comp.toList := by
  have small : ∀ row ∈ computations, row.2.toNat < 64 := by decide
  obtain row | ⟨low, free, row, rfl⟩ := row_of_encodeComp encoded
  · have bound : bits.toNat < 64 := small _ row
    refine ⟨by omega, fun operands => ?_⟩
    have low : bits.bit 6 = false := Nat.testBit_lt_two_pow bound
    rw [low, if_neg (by decide)]
    exact compute_computations operands _ row
  · have bound : low.toNat < 64 := small _ row
    refine ⟨?_, fun operands => ?_⟩
    · rw [UInt16.toNat_or]
      exact Nat.or_lt_two_pow (n := 7) (by decide) (by omega)
    · have high : (0b1000000 ||| low : Word).bit 6 = true := by
        rw [bit_overMemory]
        rfl
      have value := compute_computations { operands with a := operands.m } _ row
      rw [String.toList_ofList] at value
      rw [high, if_pos rfl, ← value_overAddress operands comp.toList free]
      refine Eq.trans (compute_congr _ _ fun place inside => ?_) value
      rw [bit_overMemory, show (64 : Nat).testBit place = false by
        rw [show 64 = 2 ^ 6 from rfl, Nat.testBit_two_pow_of_ne (by omega)], Bool.false_or]

/-- Only computations are encoded. -/
theorem isComputation_of_encodeComp {comp : String} {bits : Word}
    (encoded : encodeComp? comp = some bits) : isComputation comp.toList = true := by
  have all : ∀ row ∈ computations, isComputation row.1.toList = true := by decide
  obtain row | ⟨low, free, row, rfl⟩ := row_of_encodeComp encoded
  · exact all _ row
  · have own := all _ row
    rw [String.toList_ofList] at own
    exact (isComputation_overAddress comp.toList).symm.trans own

/-! ## Destinations and jumps -/

/-- Every destination has a bit of its own. -/
theorem bit_encodeRegister {c : Char} {bit : Word} (register : encodeRegister? c = some bit) :
    bit.toNat < 8 ∧ bit.bit 2 = decide ('A' = c) ∧ bit.bit 1 = decide ('D' = c) ∧
      bit.bit 0 = decide ('M' = c) := by
  unfold encodeRegister? at register
  split at register
  · obtain rfl := Option.some.inj register
    decide
  · obtain rfl := Option.some.inj register
    decide
  · obtain rfl := Option.some.inj register
    decide
  · contradiction

/-- The destination bits add the letters of a text to the bits that are there. -/
theorem bit_encodeDestInto {text : List Char} {bits result : Word}
    (encoded : encodeDestInto bits text = some result) (small : bits.toNat < 8) :
    result.toNat < 8 ∧ result.bit 2 = (bits.bit 2 || decide ('A' ∈ text)) ∧
      result.bit 1 = (bits.bit 1 || decide ('D' ∈ text)) ∧
      result.bit 0 = (bits.bit 0 || decide ('M' ∈ text)) := by
  induction text generalizing bits with
  | nil =>
    obtain rfl := Option.some.inj encoded
    simp [small]
  | cons c rest ih =>
    simp only [encodeDestInto, bind, Option.bind_eq_some_iff] at encoded
    obtain ⟨bit, register, added⟩ := encoded
    split at added
    · obtain ⟨own, ownA, ownD, ownM⟩ := bit_encodeRegister register
      have fits : (bits ||| bit).toNat < 8 := by
        rw [UInt16.toNat_or]
        exact Nat.or_lt_two_pow (n := 3) small own
      have each (place : Nat) : (bits ||| bit).bit place = (bits.bit place || bit.bit place) := by
        simp only [Word.bit, UInt16.toNat_or, Nat.testBit_or]
      obtain ⟨bound, high, middle, low⟩ := ih added fits
      refine ⟨bound, ?_, ?_, ?_⟩
      · rw [high, each, ownA]
        simp [Bool.or_assoc]
      · rw [middle, each, ownD]
        simp [Bool.or_assoc]
      · rw [low, each, ownM]
        simp [Bool.or_assoc]
    · contradiction

/-- Only the letters of destinations are encoded. -/
theorem mem_of_encodeDestInto {text : List Char} {bits result : Word}
    (encoded : encodeDestInto bits text = some result) : ∀ c ∈ text, c ∈ ['A', 'D', 'M'] := by
  induction text generalizing bits with
  | nil => simp
  | cons first rest ih =>
    simp only [encodeDestInto, bind, Option.bind_eq_some_iff] at encoded
    obtain ⟨bit, register, added⟩ := encoded
    have letter : first ∈ ['A', 'D', 'M'] := by
      unfold encodeRegister? at register
      split at register
      · decide
      · decide
      · decide
      · contradiction
    split at added
    · exact List.forall_mem_cons.mpr ⟨letter, ih added⟩
    · contradiction

/-- The three destination bits are the destinations that are written. -/
theorem bit_encodeDest {dest : String} {bits : Word} (encoded : encodeDest? dest = some bits) :
    bits.toNat < 8 ∧ bits.bit 2 = decide ('A' ∈ dest.toList) ∧
      bits.bit 1 = decide ('D' ∈ dest.toList) ∧ bits.bit 0 = decide ('M' ∈ dest.toList) := by
  have result := bit_encodeDestInto encoded (by decide)
  simpa [Word.bit] using result

/-- The conditions of a jump; the empty text is no jump. -/
def jumpConditions : List String := ["", "JGT", "JEQ", "JGE", "JLT", "JNE", "JLE", "JMP"]

/-- Whether a written jump is taken on a result, which is read as a signed number. -/
def jumpTaken (jump : String) (out : Word) : Bool :=
  match jump with
  | "JGT" => 0 < out.signed
  | "JEQ" => out.signed = 0
  | "JGE" => 0 ≤ out.signed
  | "JLT" => out.signed < 0
  | "JNE" => out.signed ≠ 0
  | "JLE" => out.signed ≤ 0
  | "JMP" => true
  | _ => false

/-- The jump bits are read one by one, against the sign of the result. -/
theorem jumps_eq (bits out : Word) : jumps bits out =
    (bits.bit 2 && decide (out.signed < 0) || bits.bit 1 && decide (out.signed = 0) ||
      bits.bit 0 && decide (0 < out.signed)) := by
  have each (place : Nat) (inside : place < 16) := and_bit_ne_zero bits place inside
  have sign : (out &&& 0x8000 != 0) = decide (out.signed < 0) := by
    rw [show (0x8000 : Word) = UInt16.ofNat (2 ^ 15) from rfl, and_bit_ne_zero out 15 (by decide),
      Bool.eq_iff_iff, decide_eq_true_eq, signed_neg_iff]
  have zero : (out == 0) = decide (out.signed = 0) := by
    rw [Bool.eq_iff_iff, beq_iff_eq, decide_eq_true_eq, signed_eq_zero_iff]
  have positive : (!decide (out.signed < 0) && !decide (out.signed = 0)) =
      decide (0 < out.signed) := by
    rw [Bool.eq_iff_iff]
    simp only [Bool.and_eq_true, Bool.not_eq_true', decide_eq_false_iff_not, decide_eq_true_eq]
    omega
  rw [← each 2 (by decide), ← each 1 (by decide), ← each 0 (by decide), ← positive]
  simp only [jumps, sign, zero, Bool.and_assoc]
  rfl

/-- The jump bits accept exactly the results on which the written jump is taken, and all three
are set for the unconditional jump only. -/
theorem jumps_encodeJump {jump : String} {bits : Word} (encoded : encodeJump? jump = some bits) :
    bits.toNat < 8 ∧ (∀ out, jumps bits out = jumpTaken jump out) ∧
      (bits == 0b111) = decide (jump = "JMP") := by
  have row := mem_of_lookup encoded
  simp only [List.mem_cons, List.not_mem_nil, or_false, Prod.mk.injEq] at row
  rcases row with ⟨rfl, rfl⟩ | ⟨rfl, rfl⟩ | ⟨rfl, rfl⟩ | ⟨rfl, rfl⟩ | ⟨rfl, rfl⟩ | ⟨rfl, rfl⟩ |
    ⟨rfl, rfl⟩ | ⟨rfl, rfl⟩
  all_goals
    refine ⟨by decide, fun out => ?_, by decide⟩
    rw [jumps_eq, Bool.eq_iff_iff]
    simp [Word.bit, Nat.testBit, jumpTaken]
    try omega

/-! ## Compute instructions -/

/-- The word with these three fields. -/
def computeWord (comp dest jump : Word) : Word :=
  (0xE000 : Word) ||| comp <<< (6 : Word) ||| dest <<< (3 : Word) ||| jump

section Fields

variable {comp dest jump : Word}

/-- The fields of a compute instruction stand side by side. -/
private theorem bit_computeWord (place : Nat) (inside : place < 16) :
    (computeWord comp dest jump).bit place =
      (decide (13 ≤ place) || decide (6 ≤ place) && comp.bit (place - 6) ||
        decide (3 ≤ place) && dest.bit (place - 3) || jump.bit place) := by
  have front : (0xE000 : Word).toNat.testBit place = decide (13 ≤ place) := by
    have all : ∀ place < 16, (0xE000 : Word).toNat.testBit place = decide (13 ≤ place) := by decide
    exact all place inside
  have shifted (word : Word) (places : Nat) (small : places < 16) :
      (word <<< UInt16.ofNat places).toNat.testBit place =
        (decide (places ≤ place) && word.toNat.testBit (place - places)) := by
    have amount : places % 65536 % 16 = places := by omega
    rw [UInt16.toNat_shiftLeft, UInt16.toNat_ofNat', amount, Nat.testBit_mod_two_pow,
      Nat.testBit_shiftLeft]
    simp [inside]
  simp only [computeWord, Word.bit, UInt16.toNat_or, Nat.testBit_or, front]
  rw [show (6 : Word) = UInt16.ofNat 6 from rfl, show (3 : Word) = UInt16.ofNat 3 from rfl,
    shifted comp 6 (by decide), shifted dest 3 (by decide)]

/-- A word below a power of two has no bit from there on. -/
private theorem bit_of_small {word : Word} {width : Nat} (small : word.toNat < 2 ^ width)
    (place : Nat) (high : width ≤ place) : word.bit place = false :=
  Nat.testBit_lt_two_pow (Nat.lt_of_lt_of_le small (Nat.pow_le_pow_right (by decide) high))

/-- The highest field but the front is the computation. -/
private theorem bit_comp (destSmall : dest.toNat < 2 ^ 3) (jumpSmall : jump.toNat < 2 ^ 3)
    (place : Nat) (inside : place < 7) :
    (computeWord comp dest jump).bit (6 + place) = comp.bit place := by
  rw [bit_computeWord _ (by omega), bit_of_small destSmall _ (by omega),
    bit_of_small jumpSmall _ (by omega)]
  simp [show ¬ 13 ≤ 6 + place by omega]

/-- The middle field is the destinations. -/
private theorem bit_dest (jumpSmall : jump.toNat < 2 ^ 3) (place : Nat) (inside : place < 3) :
    (computeWord comp dest jump).bit (3 + place) = dest.bit place := by
  rw [bit_computeWord _ (by omega), bit_of_small jumpSmall _ (by omega)]
  simp [show ¬ 13 ≤ 3 + place by omega, show ¬ 6 ≤ 3 + place by omega]

/-- The lowest field is the jump. -/
private theorem and_jump (jumpSmall : jump.toNat < 2 ^ 3) :
    computeWord comp dest jump &&& 0b111 = jump := by
  apply UInt16.toNat_inj.mp
  apply Nat.eq_of_testBit_eq
  intro place
  rw [UInt16.toNat_and, Nat.testBit_and, show (0b111 : Word).toNat = 2 ^ 3 - 1 from rfl,
    Nat.testBit_two_pow_sub_one]
  by_cases low : place < 3
  · have field := @bit_computeWord comp dest jump place (by omega)
    simp only [Word.bit] at field
    simp [field, low, show ¬ 13 ≤ place by omega, show ¬ 6 ≤ place by omega,
      show ¬ 3 ≤ place by omega]
  · have none := bit_of_small jumpSmall place (by omega)
    simp only [Word.bit] at none
    simp [low, none]

end Fields

/-- The processor after a compute instruction, from what is written. -/
def Cpu.perform (cpu : Cpu) (dest comp jump : String) : Cpu :=
  let out := Operands.value ⟨cpu.d, cpu.a, cpu.read cpu.a⟩ comp.toList
  let taken := jumpTaken jump out
  { rom := cpu.rom
    ram := if 'M' ∈ dest.toList then cpu.ram.set (cellOf cpu.a) out else cpu.ram
    a := if 'A' ∈ dest.toList then out else cpu.a
    d := if 'D' ∈ dest.toList then out else cpu.d
    pc := if taken then cpu.a else cpu.pc + 1
    steps := cpu.steps + 1
    halted := cpu.halted || (taken && decide (jump = "JMP") && cpu.a + 1 == cpu.pc) }

/-- The processor executes the word of a compute instruction as the instruction is written. -/
theorem execute_encodeCompute {dest comp jump : String} {word : Word}
    (encoded : Assembly.encodeCompute? dest comp jump = some word) (cpu : Cpu) :
    cpu.execute word = cpu.perform dest comp jump := by
  simp only [Assembly.encodeCompute?, bind, Option.bind_eq_some_iff] at encoded
  obtain ⟨compBits, compFound, destBits, destFound, jumpBits, jumpFound, made⟩ := encoded
  obtain rfl := Option.some.inj made
  obtain ⟨compSmall, computes⟩ := compute_encodeComp compFound
  obtain ⟨destSmall, storesA, storesD, storesM⟩ := bit_encodeDest destFound
  obtain ⟨jumpSmall, jumping, unconditional⟩ := jumps_encodeJump jumpFound
  change cpu.execute (computeWord compBits destBits jumpBits) = _
  have front : (computeWord compBits destBits jumpBits &&& 0x8000 == 0) = false := by
    have highest := and_bit_ne_zero (computeWord compBits destBits jumpBits) 15 (by decide)
    rw [bit_computeWord 15 (by decide)] at highest
    simpa using highest
  have memory : ((computeWord compBits destBits jumpBits >>> (12 : Word)) &&& 1 == 1) =
      compBits.bit 6 := by
    rw [show (12 : Word) = UInt16.ofNat 12 from rfl, shiftRight_and_one _ 12 (by decide)]
    exact bit_comp destSmall jumpSmall 6 (by decide)
  have computed (x y : Word) :
      compute (computeWord compBits destBits jumpBits >>> (6 : Word)) x y =
        compute compBits x y := by
    refine compute_congr x y fun place inside => ?_
    rw [show (6 : Word) = UInt16.ofNat 6 from rfl, bit_shiftRight _ 6 place (by decide)]
    exact bit_comp destSmall jumpSmall place (by omega)
  have stored (place : Nat) (inside : place < 3) :
      ((computeWord compBits destBits jumpBits >>> (3 : Word)) &&& UInt16.ofNat (2 ^ place) != 0) =
        destBits.bit place := by
    rw [and_bit_ne_zero _ place (by omega), show (3 : Word) = UInt16.ofNat 3 from rfl,
      bit_shiftRight _ 3 place (by decide)]
    exact bit_dest jumpSmall place inside
  have jump := @and_jump compBits destBits _ jumpSmall
  have value := computes ⟨cpu.d, cpu.a, cpu.read cpu.a⟩
  obtain ⟨rom, ram, a, d, pc, steps, halted⟩ := cpu
  simp only [Cpu.read] at value
  simp only [Cpu.execute, front, Bool.false_eq_true, ↓reduceIte, Cpu.executeCompute, memory,
    computed, value, jump, jumping, unconditional, Cpu.perform, Cpu.read]
  simp only [show (0b001 : Word) = UInt16.ofNat (2 ^ 0) from rfl,
    show (0b010 : Word) = UInt16.ofNat (2 ^ 1) from rfl,
    show (0b100 : Word) = UInt16.ofNat (2 ^ 2) from rfl, stored 0 (by decide),
    stored 1 (by decide), stored 2 (by decide), storesA, storesD, storesM, decide_eq_true_eq]

/-! ## One step -/

/-- The texts of a compute instruction mean something. -/
structure IsWritten (dest comp jump : String) : Prop where
  /-- The computation has a value. -/
  comp : isComputation comp.toList = true
  /-- Each destination is a register or memory. -/
  dest : ∀ c ∈ dest.toList, c ∈ ['A', 'D', 'M']
  /-- The jump has a condition, or there is none. -/
  jump : jump ∈ jumpConditions

/-- Only instructions that mean something are encoded. -/
theorem isWritten_of_encodeCompute {dest comp jump : String} {word : Word}
    (encoded : Assembly.encodeCompute? dest comp jump = some word) : IsWritten dest comp jump := by
  simp only [Assembly.encodeCompute?, bind, Option.bind_eq_some_iff] at encoded
  obtain ⟨compBits, compFound, destBits, destFound, jumpBits, jumpFound, -⟩ := encoded
  refine ⟨isComputation_of_encodeComp compFound, mem_of_encodeDestInto destFound, ?_⟩
  exact @List.mem_map_of_mem _ _ _ _ Prod.fst (mem_of_lookup jumpFound)

/-- What a compute instruction does when the processor executes it, from what is written: `out` is
the word that the computation stands for, and `A` names memory and the place of a jump with the
word that it holds before. -/
structure Cpu.Performed (cpu : Cpu) (dest jump : String) (out : Word) (next : Cpu) : Prop where
  /-- The program is the same. -/
  rom : next.rom = cpu.rom
  /-- The data register. -/
  d : next.d = if 'D' ∈ dest.toList then out else cpu.d
  /-- The address register. -/
  a : next.a = if 'A' ∈ dest.toList then out else cpu.a
  /-- Every word of the memory. -/
  read : ∀ address, next.read address =
    if 'M' ∈ dest.toList ∧ cellOf cpu.a = cellOf address then out else cpu.read address
  /-- Where execution goes on. -/
  pc : next.pc.toNat = if jumpTaken jump out then cpu.a.toNat else cpu.pc.toNat + 1
  /-- The instruction is counted. -/
  steps : next.steps = cpu.steps + 1

/-- A compute instruction that can be encoded means something, and a running processor executes it as
it is written. -/
theorem step?_encodeCompute {dest comp jump : String} {word : Word} {cpu : Cpu}
    (encoded : Assembly.encodeCompute? dest comp jump = some word) (running : cpu.halted = false)
    (low : cpu.pc.toNat < 32768) (fetched : cpu.rom[cpu.pc.toNat]? = some word) :
    IsWritten dest comp jump ∧ ∃ next, cpu.step? = some next ∧ cpu.Performed dest jump
      (Operands.value ⟨cpu.d, cpu.a, cpu.read cpu.a⟩ comp.toList) next := by
  have executed := execute_encodeCompute encoded cpu
  refine ⟨isWritten_of_encodeCompute encoded, cpu.perform dest comp jump,
    Cpu.step?_eq_some_iff.mpr ⟨running, word, fetched, executed⟩, rfl, rfl, rfl, ?_, ?_, rfl⟩
  · intro address
    by_cases stored : 'M' ∈ dest.toList
    · simp only [Cpu.perform, Cpu.read, stored, ↓reduceIte, true_and]
      exact Memory.read_write
    · simp only [Cpu.perform, Cpu.read, stored, ↓reduceIte, false_and]
  · have next : (cpu.pc + 1).toNat = cpu.pc.toNat + 1 := by
      rw [UInt16.toNat_add]
      change (cpu.pc.toNat + 1) % 65536 = _
      omega
    rw [← next]
    exact apply_ite UInt16.toNat _ _ _

/-- An instruction that lowers a word of the memory, takes it into `A` and jumps if it is negative
stores and jumps by the address in front of it. -/
theorem decrement_step? :
    let cpu : Cpu := { Cpu.boot #[0xFCAC] with a := 5 }
    Assembly.encodeCompute? "AM" "M-1" "JLT" = some 0xFCAC ∧ ∃ next, cpu.step? = some next ∧
      next.a = -1 ∧ next.read 5 = -1 ∧ next.d = 0 ∧ next.pc = 5 := by
  intro cpu
  have encoded : Assembly.encodeCompute? "AM" "M-1" "JLT" = some 0xFCAC := by decide
  obtain ⟨-, next, stepped, performed⟩ :=
    @step?_encodeCompute "AM" "M-1" "JLT" 0xFCAC cpu encoded rfl (by decide) rfl
  have zero : cpu.read 5 = 0 := by
    simp [cpu, Cpu.read, Cpu.boot]
  have out : Operands.value ⟨cpu.d, cpu.a, cpu.read cpu.a⟩ "M-1".toList = -1 := by
    rw [show cpu.a = 5 from rfl, zero]
    decide
  rw [out] at performed
  refine ⟨encoded, next, stepped, performed.a, ?_, performed.d, ?_⟩
  · rw [performed.read]
    rfl
  · exact UInt16.toNat_inj.mp performed.pc

end JackToolchain.Machine
