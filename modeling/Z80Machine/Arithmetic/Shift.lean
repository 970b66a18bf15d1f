import Z80Machine.Arithmetic.Byte

/-!
# Shifts, rotations and single bits

A shift moves every bit of a byte by one place and hands the bit that falls out
to the carry flag; the eight kinds differ in what enters at the other end.
Single bits are tested, set and cleared by their number.  The digit rotations
move half-bytes between the accumulator and a second byte.
-/

namespace Z80Machine

/-- The eight shifts and rotations.  `rl` and `rr` rotate through the carry
flag, and `sll` shifts a one in from the right. -/
inductive Shift where
  | rlc
  | rrc
  | rl
  | rr
  | sla
  | sra
  | sll
  | srl
  deriving DecidableEq

/-- The shift with a given three-bit code. -/
def Shift.ofCode : Fin 8 → Shift
  | 0 => .rlc
  | 1 => .rrc
  | 2 => .rl
  | 3 => .rr
  | 4 => .sla
  | 5 => .sra
  | 6 => .sll
  | 7 => .srl

/-- The bit that enters the shifted byte. -/
def Shift.bitIn (s : Shift) (a : Byte) (carry : Bool) : Bool :=
  match s with
  | .rlc => a.getLsbD 7
  | .rrc => a.getLsbD 0
  | .rl | .rr => carry
  | .sla | .srl => false
  | .sra => a.getLsbD 7
  | .sll => true

/-- Whether the shift moves bits towards bit 7. -/
def Shift.isLeft : Shift → Bool
  | .rlc | .rl | .sla | .sll => true
  | .rrc | .rr | .sra | .srl => false

/-- The shifted byte. -/
def Shift.value (s : Shift) (a : Byte) (carry : Bool) : Byte :=
  if s.isLeft then a.extractLsb' 0 7 ++ BitVec.ofBool (s.bitIn a carry)
  else BitVec.ofBool (s.bitIn a carry) ++ a.extractLsb' 1 7

/-- The bit that falls out of the shifted byte. -/
def Shift.bitOut (s : Shift) (a : Byte) : Bool :=
  if s.isLeft then a.getLsbD 7 else a.getLsbD 0

namespace Arithmetic

/-- A shift that derives all flags from its result. -/
def shift (s : Shift) (a : Byte) (f : Flags) : Result where
  value := s.value a f.carry
  flags := { Flags.ofLogic (s.value a f.carry) with carry := s.bitOut a }

/-- A shift of the accumulator by a one-byte instruction, which lets sign, zero
and parity survive. -/
def rotateAccumulator (s : Shift) (a : Byte) (f : Flags) : Result where
  value := s.value a f.carry
  flags :=
    { f with halfCarry := false, addSubtract := false, carry := s.bitOut a }.copyBits
      (s.value a f.carry)

/-- The flags of a test of bit `n`.  Bits 5 and 3 come from `source`. -/
def testBit (n : Fin 8) (value : Byte) (f : Flags) (source : Byte) : Flags :=
  let bit := value.getLsbD n
  { sign := n == 7 && bit
    zero := !bit
    halfCarry := true
    parityOverflow := !bit
    carry := f.carry : Flags }.copyBits source

/-- Bit `n` set. -/
def setBit (n : Fin 8) (value : Byte) : Byte := value ||| BitVec.twoPow 8 n

/-- Bit `n` cleared. -/
def resetBit (n : Fin 8) (value : Byte) : Byte := value &&& ~~~BitVec.twoPow 8 n

/-- The outcome of a digit rotation: the new accumulator, the new byte and the
flags. -/
structure DigitRotation where
  accumulator : Byte
  memory : Byte
  flags : Flags
  deriving DecidableEq

/-- Both digits of `memory` move up by one: the high one into the accumulator,
whose low digit takes the free place. -/
def rotateDigitLeft (a memory : Byte) (f : Flags) : DigitRotation :=
  let accumulator : Byte := a.extractLsb' 4 4 ++ memory.extractLsb' 4 4
  { accumulator
    memory := memory.extractLsb' 0 4 ++ a.extractLsb' 0 4
    flags := { Flags.ofLogic accumulator with carry := f.carry } }

/-- Both digits of `memory` move down by one: the low one into the accumulator,
whose low digit takes the free place. -/
def rotateDigitRight (a memory : Byte) (f : Flags) : DigitRotation :=
  let accumulator : Byte := a.extractLsb' 4 4 ++ memory.extractLsb' 0 4
  { accumulator
    memory := a.extractLsb' 0 4 ++ memory.extractLsb' 4 4
    flags := { Flags.ofLogic accumulator with carry := f.carry } }

@[simp] theorem testBit_carry (n : Fin 8) (value : Byte) (f : Flags) (source : Byte) :
    (testBit n value f source).carry = f.carry := rfl

@[simp] theorem rotateDigitLeft_carry (a memory : Byte) (f : Flags) :
    (rotateDigitLeft a memory f).flags.carry = f.carry := rfl

@[simp] theorem rotateDigitRight_carry (a memory : Byte) (f : Flags) :
    (rotateDigitRight a memory f).flags.carry = f.carry := rfl

end Arithmetic
end Z80Machine
