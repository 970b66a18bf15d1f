import Z80Machine.Word

/-!
# Flags

The flag register holds eight independent Booleans.  `Flags.toByte` and
`Flags.ofByte` convert between the Booleans and the register byte, and are
inverse to each other.  The flags that most operations derive from a result
byte are collected in `Flags.ofResult` and `Flags.ofLogic`.
-/

namespace Z80Machine

/-- One flag, from bit 7 of the flag register down to bit 0. -/
inductive Flag where
  | sign
  | zero
  | f5
  | halfCarry
  | f3
  | parityOverflow
  | addSubtract
  | carry
  deriving DecidableEq

/-- The bit of the flag register that holds a flag. -/
def Flag.bit : Flag → Nat
  | .sign => 7
  | .zero => 6
  | .f5 => 5
  | .halfCarry => 4
  | .f3 => 3
  | .parityOverflow => 2
  | .addSubtract => 1
  | .carry => 0

/-- The flag register with only this flag set. -/
def Flag.mask (flag : Flag) : Byte := BitVec.twoPow 8 flag.bit

/-- The content of the flag register.  `f5` and `f3` are its two bits without a
meaning of their own, usually copies of bits 5 and 3 of a result. -/
structure Flags where
  sign : Bool := false
  zero : Bool := false
  f5 : Bool := false
  halfCarry : Bool := false
  f3 : Bool := false
  parityOverflow : Bool := false
  addSubtract : Bool := false
  carry : Bool := false
  deriving DecidableEq

/-- A byte has even parity when an even number of its bits are set. -/
def evenParity (b : Byte) : Bool :=
  !(b.getLsbD 0 ^^ b.getLsbD 1 ^^ b.getLsbD 2 ^^ b.getLsbD 3 ^^
    b.getLsbD 4 ^^ b.getLsbD 5 ^^ b.getLsbD 6 ^^ b.getLsbD 7)

namespace Flags

/-- The value of one flag. -/
def get (f : Flags) : Flag → Bool
  | .sign => f.sign
  | .zero => f.zero
  | .f5 => f.f5
  | .halfCarry => f.halfCarry
  | .f3 => f.f3
  | .parityOverflow => f.parityOverflow
  | .addSubtract => f.addSubtract
  | .carry => f.carry

/-- Changes one flag. -/
def set (f : Flags) (flag : Flag) (value : Bool) : Flags :=
  match flag with
  | .sign => { f with sign := value }
  | .zero => { f with zero := value }
  | .f5 => { f with f5 := value }
  | .halfCarry => { f with halfCarry := value }
  | .f3 => { f with f3 := value }
  | .parityOverflow => { f with parityOverflow := value }
  | .addSubtract => { f with addSubtract := value }
  | .carry => { f with carry := value }

/-- The flags held by a register byte. -/
def ofByte (b : Byte) : Flags where
  sign := b.getLsbD 7
  zero := b.getLsbD 6
  f5 := b.getLsbD 5
  halfCarry := b.getLsbD 4
  f3 := b.getLsbD 3
  parityOverflow := b.getLsbD 2
  addSubtract := b.getLsbD 1
  carry := b.getLsbD 0

/-- The register byte that holds the flags. -/
def toByte (f : Flags) : Byte :=
  BitVec.ofBool f.sign ++ BitVec.ofBool f.zero ++ BitVec.ofBool f.f5 ++
    BitVec.ofBool f.halfCarry ++ BitVec.ofBool f.f3 ++ BitVec.ofBool f.parityOverflow ++
    BitVec.ofBool f.addSubtract ++ BitVec.ofBool f.carry

@[simp] theorem ofByte_toByte (f : Flags) : ofByte f.toByte = f := by
  rcases f with ⟨s, z, y, h, x, p, n, c⟩
  revert s z y h x p n c
  decide

@[simp] theorem toByte_ofByte (b : Byte) : (ofByte b).toByte = b := by
  revert b
  decide

/-- A flag is the bit of the register byte that holds it. -/
theorem getLsbD_toByte (f : Flags) (flag : Flag) : f.toByte.getLsbD flag.bit = f.get flag := by
  conv => rhs; rw [← ofByte_toByte f]
  cases flag <;> rfl

@[simp] theorem get_set_self (f : Flags) (flag : Flag) (value : Bool) :
    (f.set flag value).get flag = value := by
  cases flag <;> rfl

theorem get_set_of_ne (f : Flags) {flag other : Flag} (value : Bool) (h : other ≠ flag) :
    (f.set flag value).get other = f.get other := by
  revert h
  cases flag <;> cases other <;> simp [get, set]

/-- Bits 5 and 3 copied from a byte. -/
def copyBits (f : Flags) (b : Byte) : Flags :=
  { f with f5 := b.getLsbD 5, f3 := b.getLsbD 3 }

/-- Sign, zero and bits 5 and 3 of a result; every other flag is clear. -/
def ofResult (value : Byte) : Flags where
  sign := value.msb
  zero := value == 0
  f5 := value.getLsbD 5
  f3 := value.getLsbD 3

/-- The flags of a result together with its parity. -/
def ofLogic (value : Byte) : Flags :=
  { ofResult value with parityOverflow := evenParity value }

end Flags
end Z80Machine
