import Z80Machine.Instruction.Disassembly
import Z80Machine.Machine.Execution
import Z80Machine.Machine.Fetch
import Z80Machine.Machine.Interrupt

/-!
# Steps

A step serves a pending interrupt and then reads and executes one instruction, or
repeats the fetch of a halt instruction.  If the opcode has no meaning the step
fails: all that remains of it is what it read from memory, after the interrupt
that it served.
-/

namespace Z80Machine

/-- What a step tells about itself. -/
structure Report where
  /-- The address of the instruction. -/
  pc : Word
  /-- Whether the processor is halted now. -/
  halted : Bool
  /-- The line for the instruction, if lines are wanted. -/
  trace : Option String
  deriving DecidableEq

/-- Bytes in a column of eleven characters, with spaces between them and behind them. -/
def traceColumn (bytes : List Byte) : String :=
  let text := " ".intercalate (bytes.map Hex.byte)
  text.pushn ' ' (11 - text.length)

/-- The line for an instruction: its address, its bytes and its text. -/
def traceLine (pc : Word) (bytes : List Byte) : String :=
  Hex.word pc ++ "  " ++ traceColumn bytes ++ "  " ++ Instruction.disassemble bytes

namespace Machine

/-- The report of a step that took the given bytes at the given address. -/
def report (m : Machine) (pc : Word) (bytes : List Byte) : Report where
  pc
  halted := m.registers.halted
  trace := if m.config.trace then some (traceLine pc bytes) else none

/-- Repeats the fetch of a halt instruction. -/
def idle (m : Machine) : Report × Machine :=
  let (byte, m) := m.refresh.read m.registers.pc
  let m := { m with enableDelay := false }
  (m.report m.registers.pc [byte], m)

/-- Reads and executes one instruction.  Where there is none to execute, the
registers go back to what they were before. -/
def advance (m : Machine) : Except Error Report × Machine :=
  let fetched := m.fetch Instruction.reader
  match fetched.value with
  | .undefined opcode =>
      (.error (.undefinedOpcode opcode m.registers.pc), fetched.machine.setRegisters m.registers)
  | instruction =>
      let after := { fetched.machine with enableDelay := false }.execute instruction
      let after := { after with count := after.count + 1 }
      (.ok (after.report m.registers.pc fetched.bytes), after)

/-- One step. -/
def step (m : Machine) : Except Error Report × Machine :=
  let m := m.serve
  if m.registers.halted then
    let (report, m) := m.idle
    (.ok report, m)
  else m.advance

/-- Asks for a maskable interrupt. -/
def requestInterrupt (m : Machine) : Machine := { m with interruptPending := true }

/-- Asks for a non-maskable interrupt. -/
def requestNmi (m : Machine) : Machine := { m with nmiPending := true }

/-- Puts the processor into its state after power comes on: the registers follow the
configuration, no request is pending, and no instruction has been counted. -/
def reset (m : Machine) : Machine :=
  { m with
    registers := m.config.powerOn.registers
    interruptPending := false
    nmiPending := false
    enableDelay := false
    count := 0 }

/-- A processor that has been reset is a new one with the same configuration. -/
theorem reset_eq (m : Machine) : m.reset = { m with toCpu := Cpu.powerOn m.config } := rfl

end Machine
end Z80Machine
