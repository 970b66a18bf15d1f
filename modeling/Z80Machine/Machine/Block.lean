import Z80Machine.Machine

/-!
# Block instructions

A block instruction handles one byte of a block at a time.  The repeating forms
move the program counter back onto themselves while something is left to do, so
that an interrupt can come between two bytes.
-/

namespace Z80Machine
namespace Machine

/-- Goes back to the start of a block instruction if there is more to do. -/
def repeatIf (m : Machine) (again : Bool) : Machine :=
  if again then { m with registers.pc := m.registers.pc - 2 } else m

/-- Copies the byte at HL to DE and counts BC down. -/
def blockLoad (m : Machine) (dir : Direction) (repeats : Bool) : Machine :=
  let (value, m) := m.read m.registers.hl
  let m := m.write m.registers.de value
  let m := m.setPair .hl (dir.next m.registers.hl)
  let m := m.setPair .de (dir.next m.registers.de)
  let m := m.setPair .bc (m.registers.bc - 1)
  let sum := value + m.registers.a
  let more := m.registers.bc != 0
  let m := m.setFlags
    { m.registers.f with
      f5 := sum.getLsbD 1
      halfCarry := false
      f3 := sum.getLsbD 3
      parityOverflow := more
      addSubtract := false }
  m.repeatIf (repeats && more)

/-- Compares the accumulator with the byte at HL and counts BC down. -/
def blockCompare (m : Machine) (dir : Direction) (repeats : Bool) : Machine :=
  let (value, m) := m.read m.registers.hl
  let difference := m.registers.a - value
  let borrow := decide (m.registers.a.toNat % 16 < value.toNat % 16)
  let rest := difference - BitVec.ofNat 8 borrow.toNat
  let m := m.setPair .hl (dir.next m.registers.hl)
  let m := m.setPair .bc (m.registers.bc - 1)
  let more := m.registers.bc != 0
  let m := m.setFlags
    { sign := difference.msb
      zero := difference == 0
      f5 := rest.getLsbD 1
      halfCarry := borrow
      f3 := rest.getLsbD 3
      parityOverflow := more
      addSubtract := true
      carry := m.registers.f.carry }
  m.repeatIf (repeats && more && difference != 0)

/-- The flags of a block transfer through a device: those of the counter `b`, with the
rest derived from the byte and from the sum of the byte and a moving index. -/
def blockDeviceFlags (b value : Byte) (sum : Nat) : Flags :=
  { Flags.ofResult b with
    halfCarry := decide (255 < sum)
    parityOverflow := evenParity (BitVec.ofNat 8 (sum % 8) ^^^ b)
    addSubtract := value.msb
    carry := decide (255 < sum) }

/-- Takes a byte from device BC to HL and counts B down. -/
def blockInput (m : Machine) (dir : Direction) (repeats : Bool) : Machine :=
  let (value, m) := m.input m.registers.bc
  let m := m.write m.registers.hl value
  let sum := value.toNat + (dir.nextByte m.registers.c).toNat
  let m := { m with registers.b := m.registers.b - 1 }
  let m := m.setPair .hl (dir.next m.registers.hl)
  let m := m.setFlags (blockDeviceFlags m.registers.b value sum)
  m.repeatIf (repeats && m.registers.b != 0)

/-- Counts B down and sends the byte at HL to device BC. -/
def blockOutput (m : Machine) (dir : Direction) (repeats : Bool) : Machine :=
  let (value, m) := m.read m.registers.hl
  let m := { m with registers.b := m.registers.b - 1 }
  let m := m.output m.registers.bc value
  let m := m.setPair .hl (dir.next m.registers.hl)
  let sum := value.toNat + m.registers.l.toNat
  let m := m.setFlags (blockDeviceFlags m.registers.b value sum)
  m.repeatIf (repeats && m.registers.b != 0)

/-- Handles one byte of a block. -/
def block (m : Machine) (op : BlockOperation) (dir : Direction) (repeats : Bool) : Machine :=
  match op with
  | .load => m.blockLoad dir repeats
  | .compare => m.blockCompare dir repeats
  | .input => m.blockInput dir repeats
  | .output => m.blockOutput dir repeats

end Machine
end Z80Machine
