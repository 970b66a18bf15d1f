import Z80Machine.Inspect
import Z80Machine.Machine.Step

/-!
# The monitor

The monitor operates a machine from outside: it changes and inspects registers
and memory, lets the processor step, raises interrupts and makes it jump, call
and return.  Each `Command` has one `Reply`; `Machine.perform` carries it out.
-/

namespace Z80Machine

/-- A change of one part of the register file. -/
inductive Assignment where
  | byte (name : Reg8) (value : Byte)
  | pair (name : Reg16) (value : Word)
  | iff1 (value : Bool)
  | iff2 (value : Bool)
  | im (value : Byte)
  | halted (value : Bool)
  deriving DecidableEq

/-- The register file after an assignment. -/
def Registers.assign (s : Registers) : Assignment → Registers
  | .byte name value => s.write8 name value
  | .pair name value => s.writePair name value
  | .iff1 value => { s with iff1 := value }
  | .iff2 value => { s with iff2 := value }
  | .im value => { s with im := value }
  | .halted value => { s with halted := value }

/-- One step of several: its outcome, what the processor was left with, and its use
of the bus. -/
structure Entry where
  outcome : Except Error Report
  registers : Registers
  count : BitVec 64
  accesses : List Access

/-- How a run ended. -/
inductive RunEnd where
  | halted
  | failed (error : Error)
  /-- The limit was reached. -/
  | limit
  deriving DecidableEq

/-- What the monitor can be asked to do. -/
inductive Command where
  | load (address : Word) (data : List Byte)
  | peek (address : Word)
  | dump (address : Word) (length : Nat)
  | setDevice (device : Word) (value : Byte)
  | setDataBus (value : Byte)
  | sent
  | readMemory (address : Word)
  | writeMemory (address : Word) (value : Byte)
  | readDevice (device : Word)
  | writeDevice (device : Word) (value : Byte)
  | acknowledge
  | setRegisters (registers : Registers)
  | assign (assignments : List Assignment)
  | registers
  | readRegister (name : Reg8)
  | writeRegister (name : Reg8) (value : Byte)
  | readPair (name : Reg16)
  | writePair (name : Reg16) (value : Word)
  /-- The four pairs of the main bank. -/
  | mainPairs
  | flags
  | setFlags (flags : Flags)
  | exchangeAf
  | exchangeShadow
  | exchangeDeHl
  | refresh
  | setInterruptMode (mode : Byte)
  | step
  | steps (limit : Nat)
  | run (limit : Nat)
  | requestInterrupt
  | requestNmi
  | interrupt
  | nmi
  | reset
  | pc
  | isHalted
  | config
  | condition (code : Byte)
  | push (value : Word)
  | pop
  | jump (address : Word)
  | jumpIf (code : Byte) (address : Word)
  | jumpRelative (d : Byte)
  | jumpRelativeIf (code d : Byte)
  | countDown (d : Byte)
  | call (address : Word)
  | callIf (code : Byte) (address : Word)
  | ret
  | retIf (code : Byte)
  | restart (vector : Byte)
  | query (path : String)
  | paths
  | queryAll
  deriving DecidableEq

/-- What the monitor answers. -/
inductive Reply where
  | done
  | failed (error : Error)
  | bool (value : Bool)
  | byte (value : Byte)
  | bytes (values : List Byte)
  | word (value : Word)
  | words (values : List Word)
  | flags (flags : Flags)
  | registers (registers : Registers)
  | sent (writes : List (Word × Byte))
  | config (config : Config)
  | report (report : Report)
  | entries (entries : List Entry)
  /-- The addresses of the instructions of a run. -/
  | run (addresses : List Word) (ending : RunEnd)
  | value (value : Option Value)
  | names (names : List String)
  | values (values : List (String × Value))

namespace Machine

/-- Takes steps until one fails, `limit` of them at most. -/
def steps (m : Machine) : Nat → List Entry × Machine
  | 0 => ([], m)
  | limit + 1 =>
      let (outcome, after) := m.step
      let entry : Entry :=
        { outcome
          registers := after.registers
          count := after.count
          accesses := after.bus.since m.bus }
      match outcome with
      | .error _ => ([entry], after)
      | .ok _ =>
          let (entries, last) := after.steps limit
          (entry :: entries, last)

/-- Takes steps until the processor is halted or a step fails, `limit` of them at
most.  The first component lists the addresses of the instructions. -/
def run (m : Machine) : Nat → List Word × RunEnd × Machine
  | 0 => ([], .limit, m)
  | limit + 1 =>
      match m.step with
      | (.error error, after) => ([], .failed error, after)
      | (.ok report, after) =>
          if report.halted then ([report.pc], .halted, after)
          else
            let (addresses, ending, last) := after.run limit
            (report.pc :: addresses, ending, last)

/-- Carries out an action that depends on a condition, and tells whether the
condition was met. -/
def performIf (m : Machine) (code : Byte) (action : Option Condition → Machine) :
    Reply × Machine :=
  match Condition.ofByte? code with
  | .error error => (.failed error, m)
  | .ok cond => (.bool (m.meets (some cond)), action (some cond))

/-- Carries out a command. -/
def perform (m : Machine) : Command → Reply × Machine
  | .load address data => (.done, { m with bus := m.bus.load address data })
  | .peek address => (.byte (m.bus.peek address), m)
  | .dump address length => (.bytes (m.bus.ram.dump address length), m)
  | .setDevice device value => (.done, { m with bus := m.bus.setDevice device value })
  | .setDataBus value => (.done, { m with bus := m.bus.setDataBus value })
  | .sent => (.sent m.bus.sent, m)
  | .readMemory address =>
      let (value, m) := m.read address
      (.byte value, m)
  | .writeMemory address value => (.done, m.write address value)
  | .readDevice device =>
      let (value, m) := m.input device
      (.byte value, m)
  | .writeDevice device value => (.done, m.output device value)
  | .acknowledge =>
      let (value, bus) := m.bus.acknowledge
      (.byte value, { m with bus })
  | .setRegisters registers => (.done, m.setRegisters registers)
  | .assign assignments => (.done, m.setRegisters (assignments.foldl .assign m.registers))
  | .registers => (.registers m.registers, m)
  | .readRegister name => (.byte (m.registers.read8 name), m)
  | .writeRegister name value => (.done, m.setRegister name value)
  | .readPair name => (.word (m.registers.readPair name), m)
  | .writePair name value => (.done, m.setPair name value)
  | .mainPairs =>
      (.words [m.registers.af, m.registers.bc, m.registers.de, m.registers.hl], m)
  | .flags => (.flags m.registers.f, m)
  | .setFlags flags => (.done, m.setFlags flags)
  | .exchangeAf => (.done, m.setRegisters m.registers.exchangeAf)
  | .exchangeShadow => (.done, m.setRegisters m.registers.exchangeShadow)
  | .exchangeDeHl => (.done, m.setRegisters m.registers.exchangeDeHl)
  | .refresh => (.done, m.refresh)
  | .setInterruptMode mode =>
      match m.registers.setInterruptMode mode with
      | .error error => (.failed error, m)
      | .ok registers => (.done, m.setRegisters registers)
  | .step =>
      match m.step with
      | (.error error, m) => (.failed error, m)
      | (.ok report, m) => (.report report, m)
  | .steps limit =>
      let (entries, m) := m.steps limit
      (.entries entries, m)
  | .run limit =>
      let (addresses, ending, m) := m.run limit
      (.run addresses ending, m)
  | .requestInterrupt => (.done, m.requestInterrupt)
  | .requestNmi => (.done, m.requestNmi)
  | .interrupt =>
      let (accepted, m) := m.interrupt
      (.bool accepted, m)
  | .nmi => (.done, m.nmi)
  | .reset => (.done, m.reset)
  | .pc => (.word m.registers.pc, m)
  | .isHalted => (.bool m.registers.halted, m)
  | .config => (.config m.config, m)
  | .condition code => m.performIf code fun _ => m
  | .push value => (.done, m.push value)
  | .pop =>
      let (value, m) := m.pop
      (.word value, m)
  | .jump address => (.done, m.jump address)
  | .jumpIf code address => m.performIf code (m.jumpIf · address)
  | .jumpRelative d => (.done, m.jumpRelative d)
  | .jumpRelativeIf code d => m.performIf code (m.jumpRelativeIf · d)
  | .countDown d =>
      let (taken, m) := m.countDown d
      (.bool taken, m)
  | .call address => (.done, m.call address)
  | .callIf code address => m.performIf code (m.callIf · address)
  | .ret => (.done, m.ret)
  | .retIf code => m.performIf code m.retIf
  | .restart vector => (.done, m.restart vector)
  | .query path => (.value (m.query path), m)
  | .paths => (.names Path.names, m)
  | .queryAll => (.values (Path.all.map fun p => (p.name, m.observe p)), m)

end Machine
end Z80Machine
