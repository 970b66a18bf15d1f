import Z80Machine.Arithmetic.Decimal
import Z80Machine.Arithmetic.Shift
import Z80Machine.Arithmetic.Word
import Z80Machine.Registers

/-!
# Instructions

An instruction says what the processor is to do, free of how it is encoded:
several encodings may stand for one instruction.  Operands are places and
sources of bytes, so that the register, memory and indexed forms of an
operation are one instruction.
-/

namespace Z80Machine

/-- The two index registers. -/
inductive Index where
  | ix
  | iy
  deriving DecidableEq

/-- The word register of an index. -/
def Index.register : Index → Reg16
  | .ix => .ix
  | .iy => .iy

/-- How an instruction names a byte of memory. -/
inductive Address where
  /-- At the content of a pair. -/
  | pair (name : Reg16)
  /-- At a signed distance from an index register. -/
  | indexed (x : Index) (d : Byte)
  /-- At a fixed address. -/
  | direct (address : Word)
  deriving DecidableEq

/-- Where a byte is kept. -/
inductive Place where
  | register (name : Reg8)
  | memory (address : Address)
  deriving DecidableEq

/-- Where a byte is taken from. -/
inductive Source where
  | place (place : Place)
  | immediate (value : Byte)
  deriving DecidableEq

/-- Where a word is taken from. -/
inductive WordSource where
  | register (name : Reg16)
  | immediate (value : Word)
  | memory (address : Word)
  deriving DecidableEq

/-- What a conditional jump, call or return asks of the flags. -/
inductive Condition where
  | nz
  | z
  | nc
  | c
  | po
  | pe
  | p
  | m
  deriving DecidableEq

namespace Condition

/-- The condition with a given three-bit code. -/
def ofCode : Fin 8 → Condition
  | 0 => .nz
  | 1 => .z
  | 2 => .nc
  | 3 => .c
  | 4 => .po
  | 5 => .pe
  | 6 => .p
  | 7 => .m

/-- The condition with a given code, if there is one. -/
def ofByte? (code : Byte) : Except Error Condition :=
  if h : code.toNat < 8 then .ok (ofCode ⟨code.toNat, h⟩) else .error (.invalidCondition code)

/-- Whether the flags meet a condition. -/
def holds (cond : Condition) (f : Flags) : Bool :=
  match cond with
  | .nz => !f.zero
  | .z => f.zero
  | .nc => !f.carry
  | .c => f.carry
  | .po => !f.parityOverflow
  | .pe => f.parityOverflow
  | .p => !f.sign
  | .m => f.sign

end Condition

/-- The operations that combine the accumulator with a second byte. -/
inductive Operation where
  | add
  | adc
  | sub
  | sbc
  | and
  | xor
  | or
  | cp
  deriving DecidableEq

namespace Operation

/-- The operation with a given three-bit code. -/
def ofCode : Fin 8 → Operation
  | 0 => .add
  | 1 => .adc
  | 2 => .sub
  | 3 => .sbc
  | 4 => .and
  | 5 => .xor
  | 6 => .or
  | 7 => .cp

/-- The new accumulator and the flags. -/
def apply (op : Operation) (a value : Byte) (f : Flags) : Arithmetic.Result :=
  match op with
  | .add => Arithmetic.addByte a value false
  | .adc => Arithmetic.addByte a value f.carry
  | .sub => Arithmetic.subByte a value false
  | .sbc => Arithmetic.subByte a value f.carry
  | .and => Arithmetic.andByte a value
  | .xor => Arithmetic.xorByte a value
  | .or => Arithmetic.orByte a value
  | .cp => Arithmetic.compareByte a value

end Operation

/-- The operations on the accumulator and the flags alone. -/
inductive Adjustment where
  | rlca
  | rrca
  | rla
  | rra
  | daa
  | cpl
  | scf
  | ccf
  | neg
  deriving DecidableEq

namespace Adjustment

/-- The adjustment with a given three-bit code.  Negation has none. -/
def ofCode : Fin 8 → Adjustment
  | 0 => .rlca
  | 1 => .rrca
  | 2 => .rla
  | 3 => .rra
  | 4 => .daa
  | 5 => .cpl
  | 6 => .scf
  | 7 => .ccf

/-- The new accumulator and the flags. -/
def apply (op : Adjustment) (a : Byte) (f : Flags) : Arithmetic.Result :=
  match op with
  | .rlca => Arithmetic.rotateAccumulator .rlc a f
  | .rrca => Arithmetic.rotateAccumulator .rrc a f
  | .rla => Arithmetic.rotateAccumulator .rl a f
  | .rra => Arithmetic.rotateAccumulator .rr a f
  | .daa => Arithmetic.decimalAdjust a f
  | .cpl => Arithmetic.complement a f
  | .scf => ⟨a, Arithmetic.setCarry a f⟩
  | .ccf => ⟨a, Arithmetic.complementCarry a f⟩
  | .neg => Arithmetic.negate a

end Adjustment

/-- What a block instruction does with each byte. -/
inductive BlockOperation where
  /-- Copies it. -/
  | load
  /-- Compares it with the accumulator. -/
  | compare
  /-- Takes it from a device. -/
  | input
  /-- Sends it to a device. -/
  | output
  deriving DecidableEq

/-- Which way a block instruction moves through memory. -/
inductive Direction where
  | up
  | down
  deriving DecidableEq

namespace Direction

/-- The next address. -/
def next (dir : Direction) (address : Word) : Word :=
  match dir with
  | .up => address + 1
  | .down => address - 1

/-- The next value of a byte that moves along. -/
def nextByte (dir : Direction) (value : Byte) : Byte :=
  match dir with
  | .up => value + 1
  | .down => value - 1

end Direction

/-- The two byte registers outside the banks. -/
inductive ControlRegister where
  | i
  | r
  deriving DecidableEq

/-- What the processor can be told to do. -/
inductive Instruction where
  | nop
  /-- A `DD` or `FD` byte that the next byte deprives of its effect. -/
  | idlePrefix
  | ld (target : Place) (source : Source)
  | ldWord (target : Reg16) (source : WordSource)
  /-- Stores a word register at a fixed address. -/
  | storeWord (address : Word) (source : Reg16)
  /-- Loads I or R from the accumulator. -/
  | storeControl (target : ControlRegister)
  /-- Loads the accumulator from I or R. -/
  | loadControl (source : ControlRegister)
  | push (source : Reg16)
  | pop (target : Reg16)
  | exAf
  | exx
  | exDeHl
  /-- Swaps a word register with the top of the stack. -/
  | exStack (name : Reg16)
  | operate (op : Operation) (source : Source)
  | inc (target : Place)
  | dec (target : Place)
  | adjust (op : Adjustment)
  | addWord (target source : Reg16)
  | adcWord (source : Reg16)
  | sbcWord (source : Reg16)
  | incWord (target : Reg16)
  | decWord (target : Reg16)
  /-- Shifts a byte; an indexed form may copy the result into a register. -/
  | shift (op : Shift) (target : Place) (copy : Option Reg8)
  | bit (n : Fin 8) (target : Place)
  | res (n : Fin 8) (target : Place) (copy : Option Reg8)
  | set (n : Fin 8) (target : Place) (copy : Option Reg8)
  | rld
  | rrd
  | jp (cond : Option Condition) (address : Word)
  /-- Jumps to the content of a word register. -/
  | jpRegister (source : Reg16)
  | jr (cond : Option Condition) (d : Byte)
  | djnz (d : Byte)
  | call (cond : Option Condition) (address : Word)
  | ret (cond : Option Condition)
  | rst (vector : Byte)
  | reti
  | retn
  /-- Takes a byte from a device into the accumulator. -/
  | inA (device : Byte)
  /-- Sends the accumulator to a device. -/
  | outA (device : Byte)
  /-- Takes a byte from device BC for its flags, and into a register if one is named. -/
  | inC (target : Option Reg8)
  /-- Sends a register to device BC, or zero if none is named. -/
  | outC (source : Option Reg8)
  | block (op : BlockOperation) (dir : Direction) (repeats : Bool)
  | halt
  | di
  | ei
  | im (mode : Fin 3)
  /-- A byte after `ED` that names no instruction. -/
  | undefined (opcode : Byte)
  deriving DecidableEq

end Z80Machine
