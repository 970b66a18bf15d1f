import Z80Machine.Store

/-!
# The bus

The bus joins the processor to its memory and to its devices, which are numbered
by words.  Every use of it by the processor is an `Access`, and the bus remembers
all of them in order.  Loading and inspecting from outside leave no trace in the
history.  Sending to a device has no other effect than its place in the history
(`sent_output`).
-/

namespace Z80Machine

/-- One use of the bus. -/
inductive Access where
  /-- A byte read from memory. -/
  | read (address : Word) (value : Byte)
  /-- A byte written to memory. -/
  | write (address : Word) (value : Byte)
  /-- A byte taken from a device. -/
  | input (device : Word) (value : Byte)
  /-- A byte sent to a device. -/
  | output (device : Word) (value : Byte)
  /-- The byte on the data bus while an interrupt is acknowledged. -/
  | acknowledge (value : Byte)
  deriving DecidableEq

/-- Whether an access reads memory, and so has no effect outside. -/
def Access.isRead : Access → Bool
  | .read .. => true
  | _ => false

/-- The device and the byte of an access that sends to a device. -/
def Access.output? : Access → Option (Word × Byte)
  | .output device value => some (device, value)
  | _ => none

/-- What is on the data bus while an interrupt is acknowledged: the byte of some
device, or nothing, which reads as all ones and is no access. -/
inductive DataBus where
  | driven (value : Byte)
  | floating
  deriving DecidableEq

/-- Memory and devices, with the history of their use. -/
structure Bus where
  ram : Store := .fill 0 16
  /-- The byte that each device offers to the processor. -/
  devices : Store := .fill 0xFF 16
  dataBus : DataBus := .driven 0xFF
  /-- All accesses so far, newest first. -/
  history : List Access := []

namespace Bus

/-- Adds an access to the history. -/
def record (b : Bus) (access : Access) : Bus := { b with history := access :: b.history }

/-- Reads a byte of memory. -/
def read (b : Bus) (address : Word) : Byte × Bus :=
  (b.ram.get address, b.record (.read address (b.ram.get address)))

/-- Writes a byte of memory. -/
def write (b : Bus) (address : Word) (value : Byte) : Bus :=
  { b with ram := b.ram.set address value }.record (.write address value)

/-- Takes a byte from a device. -/
def input (b : Bus) (device : Word) : Byte × Bus :=
  (b.devices.get device, b.record (.input device (b.devices.get device)))

/-- Sends a byte to a device. -/
def output (b : Bus) (device : Word) (value : Byte) : Bus := b.record (.output device value)

/-- Takes the byte from the data bus while an interrupt is acknowledged. -/
def acknowledge (b : Bus) : Byte × Bus :=
  match b.dataBus with
  | .driven value => (value, b.record (.acknowledge value))
  | .floating => (0xFF, b)

/-- The byte in memory, seen from outside. -/
def peek (b : Bus) (address : Word) : Byte := b.ram.get address

/-- Puts bytes into memory from outside. -/
def load (b : Bus) (address : Word) (data : List Byte) : Bus :=
  { b with ram := b.ram.load address data }

/-- Sets the byte that a device offers. -/
def setDevice (b : Bus) (device : Word) (value : Byte) : Bus :=
  { b with devices := b.devices.set device value }

/-- Sets the byte on the data bus.  On a floating bus nothing drives it. -/
def setDataBus (b : Bus) (value : Byte) : Bus :=
  match b.dataBus with
  | .driven _ => { b with dataBus := .driven value }
  | .floating => b

/-- Every byte sent to a device, oldest first. -/
def sent (b : Bus) : List (Word × Byte) := (b.history.filterMap Access.output?).reverse

/-- The accesses in the history beyond those of an earlier bus, oldest first. -/
def since (b earlier : Bus) : List Access :=
  (b.history.take (b.history.length - earlier.history.length)).reverse

@[simp] theorem sent_output (b : Bus) (device : Word) (value : Byte) :
    (b.output device value).sent = b.sent ++ [(device, value)] := by
  simp [sent, output, record, Access.output?]

end Bus
end Z80Machine
