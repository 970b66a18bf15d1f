import Z80Machine.Proofs.CarryChain

/-!
# Decimal numbers

A byte holds two decimal digits, one in each half.  Sums and differences of such bytes are first
computed as of any bytes and then adjusted; the adjustment corrects a half by six just if the
decimal digits carry or borrow there (`decimalAdd_step`, `decimalSubtract_step`).  So a chain of
adjusted operations computes decimal numbers of any length (`decimal_arithmetic_exact`).
-/

namespace Z80Machine

/-- Numbers with two decimal digits in each byte. -/
def decimal : Numeral where
  base := 100
  IsDigit b := b.toNat / 16 ≤ 9 ∧ b.toNat % 16 ≤ 9
  digit b := 10 * (b.toNat / 16) + b.toNat % 16

namespace Arithmetic

/-- The adjusted sum of two bytes and the carry flag. -/
def decimalAdd (a b : Byte) (f : Flags) : Result :=
  let r := Operation.adc.apply a b f
  decimalAdjust r.value r.flags

/-- The adjusted difference of two bytes and the carry flag. -/
def decimalSubtract (a b : Byte) (f : Flags) : Result :=
  let r := Operation.sbc.apply a b f
  decimalAdjust r.value r.flags

/-! ### The adjustment -/

section

variable {a : Byte} {f : Flags} {low high : Prop} [Decidable low] [Decidable high]

/-- The correction, given which of the two digits is corrected. -/
theorem toNat_decimalCorrection (hlow : (f.halfCarry = true ∨ 9 < a.toNat % 16) ↔ low)
    (hhigh : (f.carry = true ∨ 0x99 < a.toNat) ↔ high) :
    (decimalCorrection a f).toNat = (if low then 6 else 0) + (if high then 0x60 else 0) := by
  unfold decimalCorrection
  simp only [Bool.or_eq_true, decide_eq_true_eq, hlow, hhigh]
  by_cases low <;> by_cases high <;> simp [*]

theorem toNat_decimalAdjust_of_add (hadd : f.addSubtract = false)
    (hlow : (f.halfCarry = true ∨ 9 < a.toNat % 16) ↔ low)
    (hhigh : (f.carry = true ∨ 0x99 < a.toNat) ↔ high) :
    (decimalAdjust a f).value.toNat =
      (a.toNat + ((if low then 6 else 0) + (if high then 0x60 else 0))) % 256 := by
  have hvalue : (decimalAdjust a f).value = a + decimalCorrection a f := by
    simp [decimalAdjust, hadd]
  rw [hvalue, BitVec.toNat_add, toNat_decimalCorrection hlow hhigh]

theorem toNat_decimalAdjust_of_subtract (hsubtract : f.addSubtract = true)
    (hlow : (f.halfCarry = true ∨ 9 < a.toNat % 16) ↔ low)
    (hhigh : (f.carry = true ∨ 0x99 < a.toNat) ↔ high) :
    (decimalAdjust a f).value.toNat =
      (256 - ((if low then 6 else 0) + (if high then 0x60 else 0)) + a.toNat) % 256 := by
  have hvalue : (decimalAdjust a f).value = a - decimalCorrection a f := by
    simp [decimalAdjust, hsubtract]
  rw [hvalue, BitVec.toNat_sub, toNat_decimalCorrection hlow hhigh]

theorem toNat_carry_decimalAdjust (hhigh : (f.carry = true ∨ 0x99 < a.toNat) ↔ high) :
    (decimalAdjust a f).flags.carry.toNat = if high then 1 else 0 := by
  have hcarry : (decimalAdjust a f).flags.carry = decide high := by
    simp only [decimalAdjust, ← hhigh, Bool.decide_or, Bool.decide_eq_true]
  rw [hcarry]
  by_cases h : high <;> simp [h]

end

/-! ### Digits -/

theorem exists_digits {a : Byte} (ha : decimal.IsDigit a) :
    ∃ h l, h ≤ 9 ∧ l ≤ 9 ∧ a.toNat = 16 * h + l ∧ decimal.digit a = 10 * h + l :=
  ⟨_, _, ha.1, ha.2, (Nat.div_add_mod a.toNat 16).symm, rfl⟩

theorem isDigit_of_digits {a : Byte} {h l : Nat} (hh : h ≤ 9) (hl : l ≤ 9)
    (ha : a.toNat = 16 * h + l) : decimal.IsDigit a ∧ decimal.digit a = 10 * h + l := by
  simp only [decimal]
  omega

section

variable {ah al bh bl c : Nat}

/-- Six added to the low digit, and to the high one, if they make more than nine. -/
theorem corrected_sum (hah : ah ≤ 9) (hal : al ≤ 9) (hbh : bh ≤ 9) (hbl : bl ≤ 9) (hc : c ≤ 1) :
    ((16 * ah + al + (16 * bh + bl) + c) % 256 +
        ((if 9 < al + bl + c then 6 else 0) +
          (if 99 < 10 * ah + al + (10 * bh + bl) + c then 0x60 else 0))) % 256 =
      16 * ((ah + bh + (al + bl + c) / 10) % 10) + (al + bl + c) % 10 := by
  split <;> split <;> omega

/-- Six taken from the low digit, and from the high one, if they are not enough. -/
theorem corrected_difference (hah : ah ≤ 9) (hal : al ≤ 9) (hbh : bh ≤ 9) (hbl : bl ≤ 9)
    (hc : c ≤ 1) :
    (256 - ((if al < bl + c then 6 else 0) +
        (if 10 * ah + al < 10 * bh + bl + c then 0x60 else 0)) +
          (256 - c + (256 - (16 * bh + bl) + (16 * ah + al))) % 256) % 256 =
      16 * ((10 + ah - bh - (9 + bl + c - al) / 10) % 10) + (10 + al - bl - c) % 10 := by
  split <;> split <;> omega

end

/-! ### What the adjustment finds -/

section

variable {a b : Byte} {ah al bh bl : Nat} (carry : Bool) (ha : a.toNat = 16 * ah + al)
  (hb : b.toNat = 16 * bh + bl)

include ha hb

theorem toNat_addByte :
    (addByte a b carry).value.toNat = (16 * ah + al + (16 * bh + bl) + carry.toNat) % 256 := by
  rw [← ha, ← hb]
  exact BitVec.toNat_ofNat ..

theorem toNat_subByte :
    (subByte a b carry).value.toNat =
      (256 - carry.toNat + (256 - (16 * bh + bl) + (16 * ah + al))) % 256 := by
  have hbyte : carry.toNat < 256 := by
    have hcarry := carry.toNat_le
    omega
  simp only [subByte, BitVec.toNat_sub, BitVec.toNat_ofNat, ha, hb, Nat.mod_eq_of_lt hbyte]
  omega

variable (hal : al ≤ 9) (hbl : bl ≤ 9)

include hal hbl

/-- The half-carry, or a low half that is no digit, tells that the low digits make more than
nine. -/
theorem low_addByte_iff :
    ((addByte a b carry).flags.halfCarry = true ∨ 9 < (addByte a b carry).value.toNat % 16) ↔
      9 < al + bl + carry.toNat := by
  have hhalf : (addByte a b carry).flags.halfCarry = true ↔
      15 < a.toNat % 16 + b.toNat % 16 + carry.toNat := decide_eq_true_iff
  have hcarry := carry.toNat_le
  rw [hhalf, toNat_addByte carry ha hb, ha, hb]
  omega

theorem low_subByte_iff :
    ((subByte a b carry).flags.halfCarry = true ∨ 9 < (subByte a b carry).value.toNat % 16) ↔
      al < bl + carry.toNat := by
  have hhalf : (subByte a b carry).flags.halfCarry = true ↔
      a.toNat % 16 < b.toNat % 16 + carry.toNat := decide_eq_true_iff
  have hcarry := carry.toNat_le
  rw [hhalf, toNat_subByte carry ha hb, ha, hb]
  omega

/-- The carry, or a byte above `0x99`, tells that the numbers make more than 99. -/
theorem high_addByte_iff :
    ((addByte a b carry).flags.carry = true ∨ 0x99 < (addByte a b carry).value.toNat) ↔
      99 < 10 * ah + al + (10 * bh + bl) + carry.toNat := by
  have hover : (addByte a b carry).flags.carry = true ↔
      255 < a.toNat + b.toNat + carry.toNat := decide_eq_true_iff
  have hcarry := carry.toNat_le
  rw [hover, toNat_addByte carry ha hb, ha, hb]
  omega

theorem high_subByte_iff (hah : ah ≤ 9) :
    ((subByte a b carry).flags.carry = true ∨ 0x99 < (subByte a b carry).value.toNat) ↔
      10 * ah + al < 10 * bh + bl + carry.toNat := by
  have hunder : (subByte a b carry).flags.carry = true ↔
      a.toNat < b.toNat + carry.toNat := decide_eq_true_iff
  have hcarry := carry.toNat_le
  rw [hunder, toNat_subByte carry ha hb, ha, hb]
  omega

end

/-! ### One byte -/

/-- The adjusted sum holds the sums of the digits, each with its carry, modulo ten. -/
theorem decimalAdd_step {a b : Byte} (f : Flags) (ha : decimal.IsDigit a)
    (hb : decimal.IsDigit b) :
    decimal.IsDigit (decimalAdd a b f).value ∧
      decimal.digit (decimalAdd a b f).value + 100 * (decimalAdd a b f).flags.carry.toNat =
        decimal.digit a + decimal.digit b + f.carry.toNat := by
  obtain ⟨ah, al, hah, hal, ha, hdigitA⟩ := exists_digits ha
  obtain ⟨bh, bl, hbh, hbl, hb, hdigitB⟩ := exists_digits hb
  have hc := f.carry.toNat_le
  have hlow := low_addByte_iff f.carry ha hb hal hbl
  have hhigh := high_addByte_iff f.carry ha hb hal hbl
  have hvalue : (decimalAdd a b f).value.toNat =
      16 * ((ah + bh + (al + bl + f.carry.toNat) / 10) % 10) + (al + bl + f.carry.toNat) % 10 := by
    refine (toNat_decimalAdjust_of_add rfl hlow hhigh).trans ?_
    rw [toNat_addByte f.carry ha hb]
    exact corrected_sum hah hal hbh hbl hc
  have hcarry : (decimalAdd a b f).flags.carry.toNat = _ := toNat_carry_decimalAdjust hhigh
  obtain ⟨hdigit, hresult⟩ := isDigit_of_digits (by omega) (by omega) hvalue
  refine ⟨hdigit, ?_⟩
  rw [hresult, hcarry, hdigitA, hdigitB]
  clear hlow hhigh hvalue hresult hcarry
  split <;> omega

/-- The adjusted difference holds the differences of the digits, each less its borrow, modulo
ten. -/
theorem decimalSubtract_step {a b : Byte} (f : Flags) (ha : decimal.IsDigit a)
    (hb : decimal.IsDigit b) :
    decimal.IsDigit (decimalSubtract a b f).value ∧
      decimal.digit (decimalSubtract a b f).value + decimal.digit b + f.carry.toNat =
        decimal.digit a + 100 * (decimalSubtract a b f).flags.carry.toNat := by
  obtain ⟨ah, al, hah, hal, ha, hdigitA⟩ := exists_digits ha
  obtain ⟨bh, bl, hbh, hbl, hb, hdigitB⟩ := exists_digits hb
  have hc := f.carry.toNat_le
  have hlow := low_subByte_iff f.carry ha hb hal hbl
  have hhigh := high_subByte_iff f.carry ha hb hal hbl hah
  have hvalue : (decimalSubtract a b f).value.toNat =
      16 * ((10 + ah - bh - (9 + bl + f.carry.toNat - al) / 10) % 10) +
        (10 + al - bl - f.carry.toNat) % 10 := by
    refine (toNat_decimalAdjust_of_subtract rfl hlow hhigh).trans ?_
    rw [toNat_subByte f.carry ha hb]
    exact corrected_difference hah hal hbh hbl hc
  have hcarry : (decimalSubtract a b f).flags.carry.toNat = _ := toNat_carry_decimalAdjust hhigh
  obtain ⟨hdigit, hresult⟩ := isDigit_of_digits (by omega) (by omega) hvalue
  refine ⟨hdigit, ?_⟩
  rw [hresult, hcarry, hdigitA, hdigitB]
  clear hlow hhigh hvalue hresult hcarry
  split <;> omega

theorem computes_decimalAdd : Computes decimalAdd decimal 1 where
  isDigit _ _ f ha hb := (decimalAdd_step f ha hb).1
  digit a b f ha hb := by
    have hstep := (decimalAdd_step f ha hb).2
    simp only [decimal] at hstep ⊢
    push_cast
    omega

theorem computes_decimalSubtract : Computes decimalSubtract decimal (-1) where
  isDigit _ _ f ha hb := (decimalSubtract_step f ha hb).1
  digit a b f ha hb := by
    have hstep := (decimalSubtract_step f ha hb).2
    simp only [decimal] at hstep ⊢
    push_cast
    omega

/-! ### Numbers of any length -/

/-- Decimal numbers of any length are added and subtracted exactly: the bytes of the result are
decimal digits again, and the last carry stands for what does not fit into them. -/
theorem decimal_arithmetic_exact (as bs : List Byte) (f : Flags)
    (hlength : as.length = bs.length) (has : ∀ a ∈ as, decimal.IsDigit a)
    (hbs : ∀ b ∈ bs, decimal.IsDigit b) :
    ((chain decimalAdd as bs f).1.length = as.length ∧
      (∀ d ∈ (chain decimalAdd as bs f).1, decimal.IsDigit d) ∧
      decimal.value (chain decimalAdd as bs f).1 +
          (chain decimalAdd as bs f).2.carry.toNat * 100 ^ as.length =
        decimal.value as + decimal.value bs + f.carry.toNat) ∧
    (chain decimalSubtract as bs f).1.length = as.length ∧
      (∀ d ∈ (chain decimalSubtract as bs f).1, decimal.IsDigit d) ∧
      (decimal.value (chain decimalSubtract as bs f).1 : Int) -
          (chain decimalSubtract as bs f).2.carry.toNat * 100 ^ as.length =
        decimal.value as - decimal.value bs - f.carry.toNat := by
  have hsum := computes_decimalAdd.chain hlength has hbs f
  have hdifference := computes_decimalSubtract.chain hlength has hbs f
  have hbase : (decimal.base : Int) = 100 := rfl
  rw [hbase] at hsum hdifference
  refine ⟨⟨length_chain hlength f, computes_decimalAdd.isDigit_chain has hbs f, ?_⟩,
    length_chain hlength f, computes_decimalSubtract.isDigit_chain has hbs f, ?_⟩
  · zify
    linear_combination hsum
  · linear_combination hdifference

/-- With a carry, 9975 and 26 make 2 and another carry. -/
theorem decimal_arithmetic_wraps :
    (∀ a ∈ ([0x75, 0x99] : List Byte), decimal.IsDigit a) ∧
      (∀ b ∈ ([0x26, 0x00] : List Byte), decimal.IsDigit b) ∧
      (chain decimalAdd [0x75, 0x99] [0x26, 0x00] { carry := true }).1 = [0x02, 0x00] ∧
      decimal.value [0x02, 0x00] +
          (chain decimalAdd [0x75, 0x99] [0x26, 0x00] { carry := true }).2.carry.toNat * 100 ^ 2 =
        decimal.value [0x75, 0x99] + decimal.value [0x26, 0x00] + 1 := by
  have has : ∀ a ∈ ([0x75, 0x99] : List Byte), decimal.IsDigit a := by
    simp [decimal]
  have hbs : ∀ b ∈ ([0x26, 0x00] : List Byte), decimal.IsDigit b := by
    simp [decimal]
  have hbytes :
      (chain decimalAdd [0x75, 0x99] [0x26, 0x00] { carry := true }).1 = [0x02, 0x00] := by
    decide
  obtain ⟨⟨-, -, hvalue⟩, -⟩ :=
    decimal_arithmetic_exact [0x75, 0x99] [0x26, 0x00] { carry := true } rfl has hbs
  rw [hbytes] at hvalue
  exact ⟨has, hbs, hbytes, hvalue⟩

end Arithmetic
end Z80Machine
