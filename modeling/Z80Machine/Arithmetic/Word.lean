import Z80Machine.Arithmetic.Byte

/-!
# Word arithmetic

Sums and differences of words.  Carry is the carry out of bit 15 and half-carry
the one out of bit 11; sign and bits 5 and 3 come from the high byte of the
result, and zero from the whole of it.
-/

namespace Z80Machine
namespace Arithmetic

/-- A result word with the flags it leaves. -/
structure WordResult where
  value : Word
  flags : Flags
  deriving DecidableEq

/-- The flags derived from a result word. -/
def flagsOfWord (value : Word) : Flags :=
  { Flags.ofResult value.high with zero := value == 0 }

/-- The sum of two words.  Sign, zero and parity survive. -/
def addWord (a b : Word) (f : Flags) : WordResult :=
  let sum := a.toNat + b.toNat
  let value : Word := BitVec.ofNat 16 sum
  { value
    flags :=
      { f with
        halfCarry := decide (0xFFF < a.toNat % 0x1000 + b.toNat % 0x1000)
        addSubtract := false
        carry := decide (0xFFFF < sum) }.copyBits value.high }

/-- The sum of two words and an incoming carry. -/
def addCarryWord (a b : Word) (carry : Bool) : WordResult :=
  let sum := a.toNat + b.toNat + carry.toNat
  let value : Word := BitVec.ofNat 16 sum
  { value
    flags :=
      { flagsOfWord value with
        halfCarry := decide (0xFFF < a.toNat % 0x1000 + b.toNat % 0x1000 + carry.toNat)
        parityOverflow := a.msb == b.msb && a.msb != value.msb
        carry := decide (0xFFFF < sum) } }

/-- The difference of two words and an incoming borrow. -/
def subBorrowWord (a b : Word) (borrow : Bool) : WordResult :=
  let value : Word := a - b - BitVec.ofNat 16 borrow.toNat
  { value
    flags :=
      { flagsOfWord value with
        halfCarry := decide (a.toNat % 0x1000 < b.toNat % 0x1000 + borrow.toNat)
        parityOverflow := a.msb != b.msb && a.msb != value.msb
        addSubtract := true
        carry := decide (a.toNat < b.toNat + borrow.toNat) } }

end Arithmetic
end Z80Machine
