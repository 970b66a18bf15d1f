import Z80Machine.Flags.Update
import Z80Machine.Machine.Block
import Z80Machine.Machine.Transfer

/-!
# Execution

`Machine.execute` carries out one instruction that has already been read: the
program counter stands behind it.  It is defined on all instructions, and leaves
the machine as it is where an opcode has no meaning.
-/

namespace Z80Machine
namespace Machine

/-- How a byte from a device, or from I or R, changes the flags. -/
def loadUpdate : Flags.Update := (Flags.Update.logic.withHalfCarry false).withAddSubtract false

/-- The content of a control register. -/
def control (m : Machine) : ControlRegister → Byte
  | .i => m.registers.i
  | .r => m.registers.r

/-- Puts a byte into a place, and into a register if one receives a copy. -/
def putBoth (m : Machine) (target : Place) (copy : Option Reg8) (value : Byte) : Machine :=
  match copy with
  | none => m.put target value
  | some name => (m.put target value).setRegister name value

/-- The byte from which a bit test copies bits 5 and 3: the tested byte itself, or
the high byte of its address if it is in memory. -/
def testSource (m : Machine) (target : Place) (value : Byte) : Byte :=
  match target with
  | .register _ => value
  | .memory a => (m.resolve a).high

/-- The device that `IN A,(n)` and `OUT (n),A` reach: the accumulator gives the high
byte of its number. -/
def accumulatorDevice (m : Machine) (device : Byte) : Word := .ofBytes m.registers.a device

/-- Rotates the digits of the accumulator and of the byte at HL. -/
def rotateDigits (m : Machine) (rotate : Byte → Byte → Flags → Arithmetic.DigitRotation) :
    Machine :=
  let (value, m) := m.read m.registers.hl
  let r := rotate m.registers.a value m.registers.f
  (m.write m.registers.hl r.memory).setResult ⟨r.accumulator, r.flags⟩

/-- Carries out an instruction. -/
def execute (m : Machine) : Instruction → Machine
  | .nop => m
  | .idlePrefix => m
  | .ld target source =>
      let (value, m) := m.takeSource source
      m.put target value
  | .ldWord target source =>
      let (value, m) := m.takeWord source
      m.setPair target value
  | .storeWord address source => m.writeWord address (m.registers.readPair source)
  | .storeControl .i => { m with registers.i := m.registers.a }
  | .storeControl .r => { m with registers.r := m.registers.a }
  | .loadControl source =>
      let value := m.control source
      m.setResult
        ⟨value, m.registers.f.update value (loadUpdate.withParityOverflow m.registers.iff2)⟩
  | .push source => m.push (m.registers.readPair source)
  | .pop target =>
      let (value, m) := m.pop
      m.setPair target value
  | .exAf => m.setRegisters m.registers.exchangeAf
  | .exx => m.setRegisters m.registers.exchangeShadow
  | .exDeHl => m.setRegisters m.registers.exchangeDeHl
  | .exStack name =>
      let (value, m) := m.readWord m.registers.sp
      (m.writeWord m.registers.sp (m.registers.readPair name)).setPair name value
  | .operate op source =>
      let (value, m) := m.takeSource source
      m.setResult (op.apply m.registers.a value m.registers.f)
  | .inc target =>
      let (value, m) := m.take target
      let r := Arithmetic.incByte value m.registers.f
      (m.put target r.value).setFlags r.flags
  | .dec target =>
      let (value, m) := m.take target
      let r := Arithmetic.decByte value m.registers.f
      (m.put target r.value).setFlags r.flags
  | .adjust op => m.setResult (op.apply m.registers.a m.registers.f)
  | .addWord target source =>
      let r := Arithmetic.addWord (m.registers.readPair target) (m.registers.readPair source)
        m.registers.f
      (m.setPair target r.value).setFlags r.flags
  | .adcWord source =>
      let r := Arithmetic.addCarryWord m.registers.hl (m.registers.readPair source)
        m.registers.f.carry
      (m.setPair .hl r.value).setFlags r.flags
  | .sbcWord source =>
      let r := Arithmetic.subBorrowWord m.registers.hl (m.registers.readPair source)
        m.registers.f.carry
      (m.setPair .hl r.value).setFlags r.flags
  | .incWord target => m.setPair target (m.registers.readPair target + 1)
  | .decWord target => m.setPair target (m.registers.readPair target - 1)
  | .shift op target copy =>
      let (value, m) := m.take target
      let r := Arithmetic.shift op value m.registers.f
      (m.putBoth target copy r.value).setFlags r.flags
  | .bit n target =>
      let (value, m) := m.take target
      m.setFlags (Arithmetic.testBit n value m.registers.f (m.testSource target value))
  | .res n target copy =>
      let (value, m) := m.take target
      m.putBoth target copy (Arithmetic.resetBit n value)
  | .set n target copy =>
      let (value, m) := m.take target
      m.putBoth target copy (Arithmetic.setBit n value)
  | .rld => m.rotateDigits Arithmetic.rotateDigitLeft
  | .rrd => m.rotateDigits Arithmetic.rotateDigitRight
  | .jp cond address => m.jumpIf cond address
  | .jpRegister source => m.jump (m.registers.readPair source)
  | .jr cond d => m.jumpRelativeIf cond d
  | .djnz d => (m.countDown d).2
  | .call cond address => m.callIf cond address
  | .ret cond => m.retIf cond
  | .rst vector => m.restart vector
  | .reti =>
      let m := m.ret
      { m with registers.iff1 := true }
  | .retn =>
      let m := m.ret
      { m with registers.iff1 := m.registers.iff2 }
  | .inA device =>
      let (value, m) := m.input (m.accumulatorDevice device)
      { m with registers.a := value }
  | .outA device => m.output (m.accumulatorDevice device) m.registers.a
  | .inC target =>
      let (value, m) := m.input m.registers.bc
      let m := match target with
        | none => m
        | some name => m.setRegister name value
      m.setFlags (m.registers.f.update value loadUpdate)
  | .outC none => m.output m.registers.bc 0
  | .outC (some source) => m.output m.registers.bc (m.registers.read8 source)
  | .block op dir repeats => m.block op dir repeats
  | .halt => { m with registers.halted := true, registers.pc := m.registers.pc - 1 }
  | .di => { m with registers.iff1 := false, registers.iff2 := false }
  | .ei => { m with registers.iff1 := true, registers.iff2 := true, enableDelay := true }
  | .im mode => { m with registers.im := BitVec.ofNat 8 mode.val }
  | .undefined _ => m

end Machine
end Z80Machine
