import Mathlib.Algebra.Ring.Int.Defs
import Mathlib.Algebra.Ring.Nat
import Z80Machine.Arithmetic.Word

/-!
# Words by their bytes

Two words are added or subtracted by their bytes: first the low ones, then the high ones with
the carry or the borrow that the low ones leave (`byBytes`).  The flags are those of the high
bytes, but zero is told from the whole result.  `word_arithmetic_by_bytes` says that the three
operations on words do just that, and that their carry, half-carry and overflow flags have the
usual meaning for words.
-/

namespace Z80Machine

namespace Word

theorem toNat_high (w : Word) : w.high.toNat = w.toNat / 256 := by
  have hlt := w.isLt
  rw [high, BitVec.extractLsb'_toNat, Nat.shiftRight_eq_div_pow]
  exact Nat.mod_eq_of_lt (by omega)

theorem toNat_low (w : Word) : w.low.toNat = w.toNat % 256 := by
  rw [low, BitVec.extractLsb'_toNat, Nat.shiftRight_zero]

theorem toNat_ofBytes (h l : Byte) : (ofBytes h l).toNat = 256 * h.toNat + l.toNat := by
  have hhigh := toNat_high (ofBytes h l)
  have hlow := toNat_low (ofBytes h l)
  rw [high_ofBytes] at hhigh
  rw [low_ofBytes] at hlow
  omega

/-- The sign of a word is the sign of its high byte. -/
theorem msb_high (w : Word) : w.high.msb = w.msb := by
  rw [BitVec.msb_eq_decide, BitVec.msb_eq_decide, toNat_high, decide_eq_decide]
  have hlt := w.isLt
  omega

end Word

attribute [ext] Flags Arithmetic.WordResult

namespace Arithmetic

/-- An operation on words that is made of one on bytes.  Zero tells about the whole result, and
the other flags are those of the high bytes. -/
def byBytes (op : Byte → Byte → Bool → Result) (a b : Word) (carry : Bool) : WordResult :=
  let low := op a.low b.low carry
  let high := op a.high b.high low.flags.carry
  let value := Word.ofBytes high.value low.value
  { value, flags := { high.flags with zero := value == 0 } }

/-- Whether the difference of the lowest `i` bits of two words, less `c`, borrows from the bits
above them. -/
def borrow (i : Nat) (a b : Word) (c : Bool) : Bool :=
  decide (a.toNat % 2 ^ i < b.toNat % 2 ^ i + c.toNat)

/-- Whether a number does not fit into a word with a sign. -/
def overflows (n : Int) : Bool := decide (n < -2 ^ 15 ∨ 2 ^ 15 ≤ n)

variable (a b : Word) (c : Bool)

/-! ### Sums -/

theorem toNat_carry_addByte_low :
    (addByte a.low b.low c).flags.carry.toNat =
      (a.toNat % 256 + b.toNat % 256 + c.toNat) / 256 := by
  have hsum := addByte_sum a.low b.low c
  have hvalue := (addByte a.low b.low c).value.isLt
  rw [Word.toNat_low, Word.toNat_low] at hsum
  omega

theorem value_addCarryWord : (addCarryWord a b c).value = (byBytes addByte a b c).value := by
  have hlow := addByte_sum a.low b.low c
  have hhigh := addByte_sum a.high b.high (addByte a.low b.low c).flags.carry
  have hlowValue := (addByte a.low b.low c).value.isLt
  have hhighValue := (addByte a.high b.high (addByte a.low b.low c).flags.carry).value.isLt
  rw [Word.toNat_low, Word.toNat_low] at hlow
  rw [Word.toNat_high, Word.toNat_high] at hhigh
  apply BitVec.eq_of_toNat_eq
  simp only [addCarryWord, byBytes, Word.toNat_ofBytes, BitVec.toNat_ofNat]
  -- the carry between the bytes drops out of the two sums
  omega

theorem high_value_addCarryWord :
    (addCarryWord a b c).value.high =
      (addByte a.high b.high (addByte a.low b.low c).flags.carry).value := by
  rw [value_addCarryWord]
  exact Word.high_ofBytes ..

theorem flags_addCarryWord : (addCarryWord a b c).flags = (byBytes addByte a b c).flags := by
  have hhigh := high_value_addCarryWord a b c
  have hcarry := toNat_carry_addByte_low a b c
  apply Flags.ext
  case sign => exact congrArg BitVec.msb hhigh
  case zero => exact congrArg (· == 0) (value_addCarryWord a b c)
  case f5 => exact congrArg (·.getLsbD 5) hhigh
  case f3 => exact congrArg (·.getLsbD 3) hhigh
  case addSubtract => rfl
  case halfCarry =>
    refine decide_eq_decide.mpr ?_
    rw [hcarry, Word.toNat_high, Word.toNat_high]
    omega
  case parityOverflow =>
    show (a.msb == b.msb && a.msb != (addCarryWord a b c).value.msb) =
      (a.high.msb == b.high.msb && a.high.msb != (addByte a.high b.high _).value.msb)
    rw [← hhigh, Word.msb_high, Word.msb_high, Word.msb_high]
  case carry =>
    refine decide_eq_decide.mpr ?_
    rw [hcarry, Word.toNat_high, Word.toNat_high]
    omega

theorem addCarryWord_eq_byBytes : addCarryWord a b c = byBytes addByte a b c :=
  WordResult.ext (value_addCarryWord a b c) (flags_addCarryWord a b c)

/-- A sum in which sign, zero and overflow survive is otherwise the sum without a carry. -/
theorem addWord_eq (f : Flags) :
    addWord a b f =
      { value := (addCarryWord a b false).value
        flags :=
          { (addCarryWord a b false).flags with
            sign := f.sign
            zero := f.zero
            parityOverflow := f.parityOverflow } } := rfl

/-! ### Differences -/

theorem toNat_carry_subByte_low :
    (subByte a.low b.low c).flags.carry.toNat =
      (b.toNat % 256 + c.toNat + (255 - a.toNat % 256)) / 256 := by
  have hdifference := subByte_difference a.low b.low c
  have hvalue := (subByte a.low b.low c).value.isLt
  rw [Word.toNat_low, Word.toNat_low] at hdifference
  omega

theorem value_subBorrowWord : (subBorrowWord a b c).value = (byBytes subByte a b c).value := by
  have hlow := subByte_difference a.low b.low c
  have hhigh := subByte_difference a.high b.high (subByte a.low b.low c).flags.carry
  have hlowValue := (subByte a.low b.low c).value.isLt
  have hhighValue := (subByte a.high b.high (subByte a.low b.low c).flags.carry).value.isLt
  have ha := a.isLt
  have hb := b.isLt
  have hc := c.toNat_le
  rw [Word.toNat_low, Word.toNat_low] at hlow
  rw [Word.toNat_high, Word.toNat_high] at hhigh
  apply BitVec.eq_of_toNat_eq
  simp only [subBorrowWord, byBytes, Word.toNat_ofBytes, BitVec.toNat_sub, BitVec.toNat_ofNat]
  omega

theorem high_value_subBorrowWord :
    (subBorrowWord a b c).value.high =
      (subByte a.high b.high (subByte a.low b.low c).flags.carry).value := by
  rw [value_subBorrowWord]
  exact Word.high_ofBytes ..

theorem flags_subBorrowWord : (subBorrowWord a b c).flags = (byBytes subByte a b c).flags := by
  have hhigh := high_value_subBorrowWord a b c
  have hcarry := toNat_carry_subByte_low a b c
  apply Flags.ext
  case sign => exact congrArg BitVec.msb hhigh
  case zero => exact congrArg (· == 0) (value_subBorrowWord a b c)
  case f5 => exact congrArg (·.getLsbD 5) hhigh
  case f3 => exact congrArg (·.getLsbD 3) hhigh
  case addSubtract => rfl
  case halfCarry =>
    refine decide_eq_decide.mpr ?_
    rw [hcarry, Word.toNat_high, Word.toNat_high]
    omega
  case parityOverflow =>
    show (a.msb != b.msb && a.msb != (subBorrowWord a b c).value.msb) =
      (a.high.msb != b.high.msb && a.high.msb != (subByte a.high b.high _).value.msb)
    rw [← hhigh, Word.msb_high, Word.msb_high, Word.msb_high]
  case carry =>
    refine decide_eq_decide.mpr ?_
    rw [hcarry, Word.toNat_high, Word.toNat_high]
    omega

theorem subBorrowWord_eq_byBytes : subBorrowWord a b c = byBytes subByte a b c :=
  WordResult.ext (value_subBorrowWord a b c) (flags_subBorrowWord a b c)

/-! ### What the flags mean -/

/-- A word as a number with a sign. -/
theorem toInt_eq_of_msb (w : Word) : w.toInt = w.toNat - 2 ^ 16 * w.msb.toNat := by
  rw [BitVec.toInt_eq_msb_cond]
  cases w.msb <;> simp

theorem carry_addCarryWord : (addCarryWord a b c).flags.carry = BitVec.carry 16 a b c := by
  rw [BitVec.carry, Nat.mod_eq_of_lt a.isLt, Nat.mod_eq_of_lt b.isLt]
  rfl

theorem carry_subBorrowWord : (subBorrowWord a b c).flags.carry = borrow 16 a b c := by
  rw [borrow, Nat.mod_eq_of_lt a.isLt, Nat.mod_eq_of_lt b.isLt]
  rfl

/-- The sum of two words with equal signs overflows if its sign is another one. -/
theorem parityOverflow_addCarryWord :
    (addCarryWord a b c).flags.parityOverflow = overflows (a.toInt + b.toInt + c.toNat) := by
  have ha := a.isLt
  have hb := b.isLt
  have hc := c.toNat_le
  rw [overflows, toInt_eq_of_msb, toInt_eq_of_msb, Bool.eq_iff_iff, decide_eq_true_iff]
  simp only [addCarryWord, BitVec.msb_eq_decide, BitVec.toNat_ofNat, Bool.and_eq_true, beq_iff_eq,
    bne_iff_ne, ne_eq, decide_eq_decide]
  cases ha' : decide (2 ^ (16 - 1) ≤ a.toNat) <;> cases hb' : decide (2 ^ (16 - 1) ≤ b.toNat) <;>
    simp at ha' hb' ⊢ <;> omega

theorem parityOverflow_subBorrowWord :
    (subBorrowWord a b c).flags.parityOverflow = overflows (a.toInt - b.toInt - c.toNat) := by
  have ha := a.isLt
  have hb := b.isLt
  have hc := c.toNat_le
  rw [overflows, toInt_eq_of_msb, toInt_eq_of_msb, Bool.eq_iff_iff, decide_eq_true_iff]
  simp only [subBorrowWord, BitVec.msb_eq_decide, BitVec.toNat_sub, BitVec.toNat_ofNat,
    Bool.and_eq_true, bne_iff_ne, ne_eq, decide_eq_decide]
  cases ha' : decide (2 ^ (16 - 1) ≤ a.toNat) <;> cases hb' : decide (2 ^ (16 - 1) ≤ b.toNat) <;>
    simp at ha' hb' ⊢ <;> omega

/-- The operations on words are the operations on bytes, low bytes first.  Their sums carry, and
their differences borrow, out of bit 15 and, for the half-carry, out of bit 11, and they overflow
when the result does not fit into a word with a sign. -/
theorem word_arithmetic_by_bytes (a b : Word) (c : Bool) (f : Flags) :
    addCarryWord a b c = byBytes addByte a b c ∧
      subBorrowWord a b c = byBytes subByte a b c ∧
      addWord a b f =
        { value := (byBytes addByte a b false).value
          flags :=
            { (byBytes addByte a b false).flags with
              sign := f.sign
              zero := f.zero
              parityOverflow := f.parityOverflow } } ∧
      ((addCarryWord a b c).flags.carry = BitVec.carry 16 a b c ∧
        (addCarryWord a b c).flags.halfCarry = BitVec.carry 12 a b c ∧
        (addCarryWord a b c).flags.parityOverflow = overflows (a.toInt + b.toInt + c.toNat)) ∧
      ((subBorrowWord a b c).flags.carry = borrow 16 a b c ∧
        (subBorrowWord a b c).flags.halfCarry = borrow 12 a b c ∧
        (subBorrowWord a b c).flags.parityOverflow =
          overflows (a.toInt - b.toInt - c.toNat)) ∧
      (addWord a b f).flags.carry = BitVec.carry 16 a b false ∧
      (addWord a b f).flags.halfCarry = BitVec.carry 12 a b false := by
  have hadd := addCarryWord_eq_byBytes a b
  have hcarry : (addWord a b f).flags.carry = BitVec.carry 16 a b false :=
    carry_addCarryWord a b false
  refine ⟨hadd c, subBorrowWord_eq_byBytes a b c, ?_,
    ⟨carry_addCarryWord a b c, rfl, parityOverflow_addCarryWord a b c⟩,
    ⟨carry_subBorrowWord a b c, rfl, parityOverflow_subBorrowWord a b c⟩, hcarry, rfl⟩
  rw [addWord_eq, hadd false]

end Arithmetic
end Z80Machine
