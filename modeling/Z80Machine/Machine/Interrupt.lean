import Z80Machine.Machine.Transfer

/-!
# Interrupts

A request stays pending until an instruction has ended.  A non-maskable request
comes first and is always served.  A maskable one waits while the last
instruction has just enabled interrupts; when its turn comes it is used up, even
if interrupts are disabled and nothing happens.
-/

namespace Z80Machine

/-- The two kinds of interrupt. -/
inductive Request where
  | nonMaskable
  | maskable
  deriving DecidableEq

/-- The request whose turn it is. -/
def Cpu.due (c : Cpu) : Option Request :=
  if c.nmiPending then some .nonMaskable
  else if c.interruptPending && !c.enableDelay then some .maskable
  else none

namespace Machine

/-- Leaves the halt state behind the halt instruction. -/
def leaveHalt (m : Machine) : Machine :=
  if m.registers.halted then
    { m with registers.halted := false, registers.pc := m.registers.pc + 1 }
  else m

/-- The address of the handler of a maskable interrupt.  In mode 2 it is taken from
the table in page I, at the byte on the data bus. -/
def handler (m : Machine) : Word × Machine :=
  if m.registers.im == 2 then
    let (vector, bus) := m.bus.acknowledge
    { m with bus }.readWord (.ofBytes m.registers.i vector)
  else (0x0038, m)

/-- Enters the handler of a maskable interrupt if interrupts are enabled.  The first
component tells whether they are. -/
def interrupt (m : Machine) : Bool × Machine :=
  if m.registers.iff1 then
    let m := m.leaveHalt
    let m := { m with registers.iff1 := false, registers.iff2 := false }.refresh
    let (address, m) := (m.push m.registers.pc).handler
    (true, m.jump address)
  else (false, m)

/-- Enters the handler of a non-maskable interrupt. -/
def nmi (m : Machine) : Machine :=
  let m := m.leaveHalt
  let m := { m with registers.iff1 := false }.refresh
  m.call 0x0066

/-- Serves the request whose turn it is. -/
def serve (m : Machine) : Machine :=
  match m.due with
  | some .nonMaskable => { m with nmiPending := false }.nmi
  | some .maskable => { m with interruptPending := false }.interrupt.2
  | none => m

end Machine
end Z80Machine
