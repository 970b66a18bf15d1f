import Z80Machine.Machine

/-!
# Stack and transfer of control

The stack grows downwards and keeps the high byte of a word above the low one.
Calls push the address of the next instruction, returns pop it, and relative
jumps count from it.
-/

namespace Z80Machine
namespace Machine

/-- Pushes a word, the high byte first. -/
def push (m : Machine) (value : Word) : Machine :=
  let m := { m with registers.sp := m.registers.sp - 1 }
  let m := m.write m.registers.sp value.high
  let m := { m with registers.sp := m.registers.sp - 1 }
  m.write m.registers.sp value.low

/-- Pops a word, the low byte first. -/
def pop (m : Machine) : Word × Machine :=
  let (low, m) := m.read m.registers.sp
  let m := { m with registers.sp := m.registers.sp + 1 }
  let (high, m) := m.read m.registers.sp
  let m := { m with registers.sp := m.registers.sp + 1 }
  (.ofBytes high low, m)

/-- Goes on at an address. -/
def jump (m : Machine) (address : Word) : Machine := { m with registers.pc := address }

/-- Goes on at a distance from the next instruction. -/
def jumpRelative (m : Machine) (d : Byte) : Machine := m.jump (m.registers.pc.offset d)

/-- Goes on at an address and keeps the way back on the stack. -/
def call (m : Machine) (address : Word) : Machine := (m.push m.registers.pc).jump address

/-- Goes back to the address on the stack. -/
def ret (m : Machine) : Machine :=
  let (address, m) := m.pop
  m.jump address

/-- Calls one of the eight addresses 0, 8, ..., 56 of which the vector names one in
its bits 3 to 5. -/
def restart (m : Machine) (vector : Byte) : Machine :=
  m.call ((vector &&& 0x38).setWidth 16)

/-- Whether the flags meet a condition; the absence of a condition is always met. -/
def meets (m : Machine) : Option Condition → Bool
  | none => true
  | some cond => cond.holds m.registers.f

/-- Jumps if a condition is met. -/
def jumpIf (m : Machine) (cond : Option Condition) (address : Word) : Machine :=
  if m.meets cond then m.jump address else m

/-- Jumps by a distance if a condition is met. -/
def jumpRelativeIf (m : Machine) (cond : Option Condition) (d : Byte) : Machine :=
  if m.meets cond then m.jumpRelative d else m

/-- Calls if a condition is met. -/
def callIf (m : Machine) (cond : Option Condition) (address : Word) : Machine :=
  if m.meets cond then m.call address else m

/-- Returns if a condition is met. -/
def retIf (m : Machine) (cond : Option Condition) : Machine :=
  if m.meets cond then m.ret else m

/-- Counts B down and jumps by a distance unless it has come to zero.  The first
component tells whether it jumps. -/
def countDown (m : Machine) (d : Byte) : Bool × Machine :=
  let m := { m with registers.b := m.registers.b - 1 }
  if m.registers.b == 0 then (false, m) else (true, m.jumpRelative d)

@[simp] theorem registers_push (m : Machine) (value : Word) :
    (m.push value).registers = { m.registers with sp := m.registers.sp - 1 - 1 } := rfl

@[simp] theorem ram_push (m : Machine) (value : Word) :
    (m.push value).bus.ram =
      (m.bus.ram.set (m.registers.sp - 1) value.high).set (m.registers.sp - 1 - 1) value.low :=
  rfl

@[simp] theorem registers_pop (m : Machine) :
    m.pop.2.registers = { m.registers with sp := m.registers.sp + 1 + 1 } := rfl

@[simp] theorem fst_pop (m : Machine) :
    m.pop.1 =
      .ofBytes (m.bus.ram.get (m.registers.sp + 1)) (m.bus.ram.get m.registers.sp) := rfl

end Machine
end Z80Machine
