import JackToolchain.Proofs.Machine.Computation

/-!
# The signed order of words

The machine compares two words by the sign of their difference, which wraps. The sign is the one of
the true difference exactly if that fits into a word: a difference that does not fit wraps to the
other side of zero.
-/
namespace JackToolchain.Machine

/-- Whether the difference of two words, read as signed numbers, is a signed number of a word. -/
def DifferenceFits (x y : Word) : Prop :=
  -32768 ≤ x.signed - y.signed ∧ x.signed - y.signed ≤ 32767

/-- A word stands for one of 2^16 signed numbers. -/
theorem signed_bounds (word : Word) : -32768 ≤ word.signed ∧ word.signed ≤ 32767 := by
  have low := word.toBitVec.le_toInt
  have high := word.toBitVec.toInt_lt
  change -2 ^ 15 ≤ word.signed at low
  change word.signed < 2 ^ 15 at high
  omega

/-- The difference of two words is the true difference, moved by 2^16 if that does not fit. -/
theorem signed_sub (x y : Word) : (x - y).signed =
    if x.signed - y.signed < -32768 then x.signed - y.signed + 65536
    else if 32767 < x.signed - y.signed then x.signed - y.signed - 65536
    else x.signed - y.signed := by
  have wraps : (x - y).signed = (x.signed - y.signed).bmod 65536 :=
    @BitVec.toInt_sub 16 x.toBitVec y.toBitVec
  have xBounds := signed_bounds x
  have yBounds := signed_bounds y
  rw [wraps, Int.bmod_def]
  split <;> split <;> omega

/-- The difference of words is zero exactly if they are equal. -/
theorem signed_sub_eq_zero (x y : Word) : (x - y).signed = 0 ↔ x = y := by
  rw [signed_eq_zero_iff]
  constructor
  · intro zero
    rw [← UInt16.sub_add_cancel x y, zero, UInt16.zero_add]
  · rintro rfl
    exact UInt16.sub_self x

/-- A difference is positive for the greater word in front exactly if it fits. -/
theorem signed_sub_pos_iff (x y : Word) :
    (0 < (x - y).signed ↔ y.signed < x.signed) ↔ DifferenceFits x y := by
  have xBounds := signed_bounds x
  have yBounds := signed_bounds y
  rw [signed_sub, DifferenceFits]
  split
  · omega
  · split <;> omega

/-- A difference is negative for the smaller word in front exactly if it fits. -/
theorem signed_sub_neg_iff (x y : Word) :
    ((x - y).signed < 0 ↔ x.signed < y.signed) ↔ DifferenceFits x y := by
  have xBounds := signed_bounds x
  have yBounds := signed_bounds y
  rw [signed_sub, DifferenceFits]
  split
  · omega
  · split <;> omega

end JackToolchain.Machine
