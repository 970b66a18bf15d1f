import Z80Machine.Flags

/-!
# Byte arithmetic

Each operation maps its operands, and the incoming flags where some of them
survive, to a result byte and the outgoing flags.  Carries and borrows are
stated on natural numbers: carry is the carry out of bit 7, half-carry the one
out of bit 3, and overflow compares the signs of operands and result.
-/

namespace Z80Machine
namespace Arithmetic

/-- A result byte with the flags it leaves. -/
structure Result where
  value : Byte
  flags : Flags
  deriving DecidableEq

/-- The sum of two bytes and an incoming carry. -/
def addByte (a b : Byte) (carry : Bool) : Result :=
  let sum := a.toNat + b.toNat + carry.toNat
  let value := BitVec.ofNat 8 sum
  { value
    flags :=
      { Flags.ofResult value with
        halfCarry := decide (15 < a.toNat % 16 + b.toNat % 16 + carry.toNat)
        parityOverflow := a.msb == b.msb && a.msb != value.msb
        carry := decide (255 < sum) } }

/-- The difference of two bytes and an incoming borrow. -/
def subByte (a b : Byte) (borrow : Bool) : Result :=
  let value := a - b - BitVec.ofNat 8 borrow.toNat
  { value
    flags :=
      { Flags.ofResult value with
        halfCarry := decide (a.toNat % 16 < b.toNat % 16 + borrow.toNat)
        parityOverflow := a.msb != b.msb && a.msb != value.msb
        addSubtract := true
        carry := decide (a.toNat < b.toNat + borrow.toNat) } }

/-- A comparison leaves the first operand as it is and the flags of the
difference, except that bits 5 and 3 come from the second operand. -/
def compareByte (a b : Byte) : Result where
  value := a
  flags := (subByte a b false).flags.copyBits b

/-- Bitwise conjunction, which sets the half-carry flag. -/
def andByte (a b : Byte) : Result where
  value := a &&& b
  flags := { Flags.ofLogic (a &&& b) with halfCarry := true }

/-- Bitwise disjunction. -/
def orByte (a b : Byte) : Result where
  value := a ||| b
  flags := Flags.ofLogic (a ||| b)

/-- Bitwise exclusive disjunction. -/
def xorByte (a b : Byte) : Result where
  value := a ^^^ b
  flags := Flags.ofLogic (a ^^^ b)

/-- One more than a byte.  The carry flag survives. -/
def incByte (a : Byte) (f : Flags) : Result where
  value := a + 1
  flags :=
    { Flags.ofResult (a + 1) with
      halfCarry := a.toNat % 16 == 15
      parityOverflow := a == 0x7F
      carry := f.carry }

/-- One less than a byte.  The carry flag survives. -/
def decByte (a : Byte) (f : Flags) : Result where
  value := a - 1
  flags :=
    { Flags.ofResult (a - 1) with
      halfCarry := a.toNat % 16 == 0
      parityOverflow := a == 0x80
      addSubtract := true
      carry := f.carry }

/-- Zero less a byte. -/
def negate (a : Byte) : Result := subByte 0 a false

/-- All bits inverted.  Sign, zero, parity and carry survive. -/
def complement (a : Byte) (f : Flags) : Result where
  value := ~~~a
  flags := { f with halfCarry := true, addSubtract := true }.copyBits (~~~a)

/-- The carry flag set.  Bits 5 and 3 come from the accumulator `a`. -/
def setCarry (a : Byte) (f : Flags) : Flags :=
  { f with halfCarry := false, addSubtract := false, carry := true }.copyBits a

/-- The carry flag inverted; its old value moves to the half-carry flag. -/
def complementCarry (a : Byte) (f : Flags) : Flags :=
  { f with halfCarry := f.carry, addSubtract := false, carry := !f.carry }.copyBits a

@[simp] theorem addByte_carry (a b : Byte) (carry : Bool) :
    (addByte a b carry).flags.carry = decide (255 < a.toNat + b.toNat + carry.toNat) := rfl

@[simp] theorem subByte_carry (a b : Byte) (borrow : Bool) :
    (subByte a b borrow).flags.carry = decide (a.toNat < b.toNat + borrow.toNat) := rfl

@[simp] theorem incByte_carry (a : Byte) (f : Flags) : (incByte a f).flags.carry = f.carry := rfl

@[simp] theorem decByte_carry (a : Byte) (f : Flags) : (decByte a f).flags.carry = f.carry := rfl

/-- Result and carry together are the sum of the operands. -/
theorem addByte_sum (a b : Byte) (carry : Bool) :
    (addByte a b carry).value.toNat + 256 * (addByte a b carry).flags.carry.toNat =
      a.toNat + b.toNat + carry.toNat := by
  have ha := a.isLt
  have hb := b.isLt
  have hc := carry.toNat_le
  simp only [addByte_carry]
  simp only [addByte, BitVec.toNat_ofNat]
  by_cases h : 255 < a.toNat + b.toNat + carry.toNat <;> simp [h] <;> omega

/-- Result and borrow together are the difference of the operands. -/
theorem subByte_difference (a b : Byte) (borrow : Bool) :
    (subByte a b borrow).value.toNat + b.toNat + borrow.toNat =
      a.toNat + 256 * (subByte a b borrow).flags.carry.toNat := by
  have ha := a.isLt
  have hb := b.isLt
  have hc := borrow.toNat_le
  simp only [subByte_carry]
  simp only [subByte, BitVec.toNat_sub, BitVec.toNat_ofNat]
  by_cases h : a.toNat < b.toNat + borrow.toNat <;> simp [h] <;> omega

end Arithmetic
end Z80Machine
