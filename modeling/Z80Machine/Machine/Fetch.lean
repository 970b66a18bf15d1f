import Z80Machine.Instruction.Reader
import Z80Machine.Machine

/-!
# Fetching

A machine reads an encoding from its memory, from the program counter on.  The
bytes that it takes are those in memory (`bytes_fetch`), which stays as it is
(`ram_fetch`).
-/

namespace Z80Machine

/-- What a machine has when it has read an instruction. -/
structure Fetched (α : Type) where
  value : α
  /-- The bytes of the encoding, in the order in which they were taken. -/
  bytes : List Byte
  machine : Machine

namespace Machine

variable {α : Type}

/-- Takes the byte at the program counter. -/
def fetchByte (m : Machine) : Byte × Machine :=
  let (value, m) := m.read m.registers.pc
  (value, { m with registers.pc := m.registers.pc + 1 })

/-- Reads an encoding from memory, from the program counter on.  An opcode fetch
counts a refreshed row. -/
def fetch (m : Machine) : Reader α → Fetched α
  | .done value => ⟨value, [], m⟩
  | .opcode next =>
      let (byte, m) := m.refresh.fetchByte
      let rest := m.fetch (next byte)
      { rest with bytes := byte :: rest.bytes }
  | .operand next =>
      let (byte, m) := m.fetchByte
      let rest := m.fetch (next byte)
      { rest with bytes := byte :: rest.bytes }
  | .peek next =>
      let (byte, m) := m.read m.registers.pc
      m.fetch (next (some byte))

@[simp] theorem fst_fetchByte (m : Machine) :
    m.fetchByte.1 = m.bus.ram.get m.registers.pc := rfl

@[simp] theorem registers_fetchByte (m : Machine) :
    m.fetchByte.2.registers = { m.registers with pc := m.registers.pc + 1 } := rfl

@[simp] theorem ram_fetchByte (m : Machine) : m.fetchByte.2.bus.ram = m.bus.ram := rfl

/-- Fetching leaves memory as it is. -/
@[simp] theorem ram_fetch (m : Machine) (r : Reader α) :
    (m.fetch r).machine.bus.ram = m.bus.ram := by
  induction r generalizing m with
  | done value => rfl
  | opcode next ih => exact ih _ m.refresh.fetchByte.2
  | operand next ih => exact ih _ m.fetchByte.2
  | peek next ih => exact ih _ (m.read m.registers.pc).2

/-- The bytes that are taken are those in memory. -/
theorem bytes_fetch (m : Machine) (r : Reader α) :
    (m.fetch r).bytes = m.bus.ram.dump m.registers.pc (m.fetch r).bytes.length := by
  induction r generalizing m with
  | done value => rfl
  | opcode next ih => exact congrArg (_ :: ·) (ih _ m.refresh.fetchByte.2)
  | operand next ih => exact congrArg (_ :: ·) (ih _ m.fetchByte.2)
  | peek next ih => exact ih _ (m.read m.registers.pc).2

end Machine
end Z80Machine
