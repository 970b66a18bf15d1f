import Z80Machine.Bus
import Z80Machine.Instruction

/-!
# Machines

A machine is a processor attached to a bus.  This module holds its state and the
ways in which an instruction reaches its operands: byte and word registers, bytes
and words of memory, and the places and sources that instructions name.
-/

namespace Z80Machine

/-- What the registers hold after power comes on. -/
inductive PowerOn where
  /-- Zero throughout. -/
  | zeroed
  /-- All ones in AF and SP, as in the hardware, and zero elsewhere. -/
  | silicon
  deriving DecidableEq

/-- The register file after power comes on. -/
def PowerOn.registers : PowerOn → Registers
  | .zeroed => {}
  | .silicon => { a := 0xFF, f := .ofByte 0xFF, sp := 0xFFFF }

/-- The choices made when a processor is built. -/
structure Config where
  powerOn : PowerOn := .zeroed
  /-- Whether each step is reported with a line of text. -/
  trace : Bool := false
  deriving DecidableEq

/-- A processor. -/
structure Cpu where
  config : Config := {}
  registers : Registers := {}
  /-- A maskable interrupt has been requested and not yet served. -/
  interruptPending : Bool := false
  /-- A non-maskable interrupt has been requested and not yet served. -/
  nmiPending : Bool := false
  /-- The last instruction enabled interrupts, so none is served before the next. -/
  enableDelay : Bool := false
  /-- The number of instructions executed. -/
  count : BitVec 64 := 0
  deriving DecidableEq

/-- The processor after power comes on. -/
def Cpu.powerOn (config : Config) : Cpu := { config, registers := config.powerOn.registers }

/-- A processor and its bus. -/
structure Machine extends Cpu where
  bus : Bus := {}

namespace Machine

/-- Changes the register file. -/
def setRegisters (m : Machine) (s : Registers) : Machine := { m with registers := s }

/-- Changes a byte register. -/
def setRegister (m : Machine) (name : Reg8) (value : Byte) : Machine :=
  m.setRegisters (m.registers.write8 name value)

/-- Changes a word register. -/
def setPair (m : Machine) (name : Reg16) (value : Word) : Machine :=
  m.setRegisters (m.registers.writePair name value)

/-- Changes the flags. -/
def setFlags (m : Machine) (f : Flags) : Machine := { m with registers.f := f }

/-- Changes the accumulator and the flags. -/
def setResult (m : Machine) (r : Arithmetic.Result) : Machine :=
  { m with registers.a := r.value, registers.f := r.flags }

/-- Counts one refreshed row of memory. -/
def refresh (m : Machine) : Machine := m.setRegisters m.registers.refresh

/-- Reads a byte of memory. -/
def read (m : Machine) (address : Word) : Byte × Machine :=
  let (value, bus) := m.bus.read address
  (value, { m with bus })

/-- Writes a byte of memory. -/
def write (m : Machine) (address : Word) (value : Byte) : Machine :=
  { m with bus := m.bus.write address value }

/-- Reads a word of memory, the low byte first. -/
def readWord (m : Machine) (address : Word) : Word × Machine :=
  let (low, m) := m.read address
  let (high, m) := m.read (address + 1)
  (.ofBytes high low, m)

/-- Writes a word of memory, the low byte first. -/
def writeWord (m : Machine) (address value : Word) : Machine :=
  (m.write address value.low).write (address + 1) value.high

/-- Takes a byte from a device. -/
def input (m : Machine) (device : Word) : Byte × Machine :=
  let (value, bus) := m.bus.input device
  (value, { m with bus })

/-- Sends a byte to a device. -/
def output (m : Machine) (device : Word) (value : Byte) : Machine :=
  { m with bus := m.bus.output device value }

/-- The address that an instruction names. -/
def resolve (m : Machine) : Address → Word
  | .pair name => m.registers.readPair name
  | .indexed x d => (m.registers.readPair x.register).offset d
  | .direct address => address

/-- Takes the byte kept in a place. -/
def take (m : Machine) : Place → Byte × Machine
  | .register name => (m.registers.read8 name, m)
  | .memory a => m.read (m.resolve a)

/-- Puts a byte into a place. -/
def put (m : Machine) (target : Place) (value : Byte) : Machine :=
  match target with
  | .register name => m.setRegister name value
  | .memory a => m.write (m.resolve a) value

/-- Takes a byte from a source. -/
def takeSource (m : Machine) : Source → Byte × Machine
  | .place p => m.take p
  | .immediate value => (value, m)

/-- Takes a word from a source. -/
def takeWord (m : Machine) : WordSource → Word × Machine
  | .register name => (m.registers.readPair name, m)
  | .immediate value => (value, m)
  | .memory address => m.readWord address

@[simp] theorem fst_read (m : Machine) (address : Word) :
    (m.read address).1 = m.bus.ram.get address := rfl

@[simp] theorem registers_read (m : Machine) (address : Word) :
    (m.read address).2.registers = m.registers := rfl

@[simp] theorem ram_read (m : Machine) (address : Word) :
    (m.read address).2.bus.ram = m.bus.ram := rfl

@[simp] theorem registers_write (m : Machine) (address : Word) (value : Byte) :
    (m.write address value).registers = m.registers := rfl

@[simp] theorem ram_write (m : Machine) (address : Word) (value : Byte) :
    (m.write address value).bus.ram = m.bus.ram.set address value := rfl

@[simp] theorem registers_output (m : Machine) (device : Word) (value : Byte) :
    (m.output device value).registers = m.registers := rfl

@[simp] theorem ram_output (m : Machine) (device : Word) (value : Byte) :
    (m.output device value).bus.ram = m.bus.ram := rfl

@[simp] theorem sent_output (m : Machine) (device : Word) (value : Byte) :
    (m.output device value).bus.sent = m.bus.sent ++ [(device, value)] :=
  Bus.sent_output m.bus device value

/-- A word that has been written is read back, also across the end of memory. -/
@[simp] theorem fst_readWord_writeWord (m : Machine) (address value : Word) :
    ((m.writeWord address value).readWord address).1 = value := by
  simp [readWord, writeWord, Cells.get_set]

end Machine
end Z80Machine
