import Z80Machine.Instruction
import Z80Machine.Instruction.Reader

/-!
# Encodings

The tables that give each opcode its instruction.  An opcode is read as three
octal digits.  The main table is used on its own and after `DD` and `FD`, where
IX or IY takes the part of HL and a byte in memory is found at a distance from
it; `CB` selects the table of bit operations and `ED` a table with holes.
-/

namespace Z80Machine

/-- The register that takes the part of HL in an encoding. -/
inductive Pointer where
  | hl
  | index (x : Index)
  deriving DecidableEq

namespace Pointer

/-- The word register itself. -/
def register : Pointer → Reg16
  | .hl => .hl
  | .index x => x.register

/-- The byte register that takes the part of another: the halves of the pointer
stand in for H and L. -/
def substitute : Pointer → Reg8 → Reg8
  | .index .ix, .h => .ixh
  | .index .ix, .l => .ixl
  | .index .iy, .h => .iyh
  | .index .iy, .l => .iyl
  | _, name => name

/-- The register with a given two-bit code. -/
def pair (p : Pointer) : Fin 4 → Reg16
  | 0 => .bc
  | 1 => .de
  | 2 => p.register
  | 3 => .sp

/-- The register with a given two-bit code, where the stack is concerned. -/
def stackPair (p : Pointer) : Fin 4 → Reg16
  | 0 => .bc
  | 1 => .de
  | 2 => p.register
  | 3 => .af

/-- Reads the distance, if there is one, of the byte in memory. -/
def address {α : Type} (p : Pointer) (next : Address → Reader α) : Reader α :=
  match p with
  | .hl => next (.pair .hl)
  | .index x => .operand fun d => next (.indexed x d)

end Pointer

/-- The byte register with a given three-bit code.  Code six stands for a byte in
memory, or for nothing. -/
def Reg8.ofCode? : Fin 8 → Option Reg8
  | 0 => some .b
  | 1 => some .c
  | 2 => some .d
  | 3 => some .e
  | 4 => some .h
  | 5 => some .l
  | 6 => none
  | 7 => some .a

/-- Reads the place with a given three-bit code. -/
def Pointer.place {α : Type} (p : Pointer) (code : Fin 8) (next : Place → Reader α) :
    Reader α :=
  match Reg8.ofCode? code with
  | some name => next (.register (p.substitute name))
  | none => p.address fun a => next (.memory a)

namespace Encoding

/-- The first octal digit of an opcode. -/
def first (op : Byte) : Fin 4 := ⟨op.toNat / 64, by have := op.isLt; omega⟩

/-- The second octal digit of an opcode. -/
def second (op : Byte) : Fin 8 := ⟨op.toNat / 8 % 8, by omega⟩

/-- The third octal digit of an opcode. -/
def third (op : Byte) : Fin 8 := ⟨op.toNat % 8, by omega⟩

/-- The upper two bits of an octal digit. -/
def half (y : Fin 8) : Fin 4 := ⟨y.val / 2, by omega⟩

/-- Whether the lowest bit of an octal digit is set. -/
def odd (y : Fin 8) : Bool := y.val % 2 == 1

/-- Reads the distance of a relative jump. -/
def relative (cond : Option Condition) : Reader Instruction :=
  .operand fun d => .done (.jr cond d)

/-- Opcodes that begin with the digit 0. -/
def mainRow0 (p : Pointer) (y z : Fin 8) : Reader Instruction :=
  match z with
  | 0 =>
      match y with
      | 0 => .done .nop
      | 1 => .done .exAf
      | 2 => .operand fun d => .done (.djnz d)
      | 3 => relative none
      | 4 => relative (some .nz)
      | 5 => relative (some .z)
      | 6 => relative (some .nc)
      | 7 => relative (some .c)
  | 1 =>
      if odd y then .done (.addWord p.register (p.pair (half y)))
      else .word fun nn => .done (.ldWord (p.pair (half y)) (.immediate nn))
  | 2 =>
      match y with
      | 0 => .done (.ld (.memory (.pair .bc)) (.place (.register .a)))
      | 1 => .done (.ld (.register .a) (.place (.memory (.pair .bc))))
      | 2 => .done (.ld (.memory (.pair .de)) (.place (.register .a)))
      | 3 => .done (.ld (.register .a) (.place (.memory (.pair .de))))
      | 4 => .word fun nn => .done (.storeWord nn p.register)
      | 5 => .word fun nn => .done (.ldWord p.register (.memory nn))
      | 6 => .word fun nn => .done (.ld (.memory (.direct nn)) (.place (.register .a)))
      | 7 => .word fun nn => .done (.ld (.register .a) (.place (.memory (.direct nn))))
  | 3 =>
      if odd y then .done (.decWord (p.pair (half y)))
      else .done (.incWord (p.pair (half y)))
  | 4 => p.place y fun target => .done (.inc target)
  | 5 => p.place y fun target => .done (.dec target)
  | 6 => p.place y fun target => .operand fun n => .done (.ld target (.immediate n))
  | 7 => .done (.adjust (.ofCode y))

/-- Opcodes that begin with the digit 1: loads from place to place.  Where one of
the two is in memory the other is never a half of an index register. -/
def mainRow1 (p : Pointer) (y z : Fin 8) : Reader Instruction :=
  match Reg8.ofCode? y, Reg8.ofCode? z with
  | none, none => .done .halt
  | none, some source =>
      p.address fun a => .done (.ld (.memory a) (.place (.register source)))
  | some target, none =>
      p.address fun a => .done (.ld (.register target) (.place (.memory a)))
  | some target, some source =>
      .done (.ld (.register (p.substitute target)) (.place (.register (p.substitute source))))

/-- Opcodes that begin with the digit 2. -/
def mainRow2 (p : Pointer) (y z : Fin 8) : Reader Instruction :=
  p.place z fun source => .done (.operate (.ofCode y) (.place source))

/-- Opcodes that begin with the digit 3.  The four bytes that select another table
do nothing here. -/
def mainRow3 (p : Pointer) (y z : Fin 8) : Reader Instruction :=
  match z with
  | 0 => .done (.ret (some (.ofCode y)))
  | 1 =>
      match y with
      | 1 => .done (.ret none)
      | 3 => .done .exx
      | 5 => .done (.jpRegister p.register)
      | 7 => .done (.ldWord .sp (.register p.register))
      | _ => .done (.pop (p.stackPair (half y)))
  | 2 => .word fun nn => .done (.jp (some (.ofCode y)) nn)
  | 3 =>
      match y with
      | 0 => .word fun nn => .done (.jp none nn)
      | 1 => .done .idlePrefix
      | 2 => .operand fun n => .done (.outA n)
      | 3 => .operand fun n => .done (.inA n)
      | 4 => .done (.exStack p.register)
      | 5 => .done .exDeHl
      | 6 => .done .di
      | 7 => .done .ei
  | 4 => .word fun nn => .done (.call (some (.ofCode y)) nn)
  | 5 =>
      match y with
      | 1 => .word fun nn => .done (.call none nn)
      | 3 | 5 | 7 => .done .idlePrefix
      | _ => .done (.push (p.stackPair (half y)))
  | 6 => .operand fun n => .done (.operate (.ofCode y) (.immediate n))
  | 7 => .done (.rst (BitVec.ofNat 8 (8 * y.val)))

/-- The main table. -/
def mainTable (p : Pointer) (op : Byte) : Reader Instruction :=
  match first op with
  | 0 => mainRow0 p (second op) (third op)
  | 1 => mainRow1 p (second op) (third op)
  | 2 => mainRow2 p (second op) (third op)
  | 3 => mainRow3 p (second op) (third op)

/-- The bit operation with a given opcode on a given place. -/
def bitOperation (op : Byte) (target : Place) (copy : Option Reg8) : Instruction :=
  match first op with
  | 0 => .shift (.ofCode (second op)) target copy
  | 1 => .bit (second op) target
  | 2 => .res (second op) target copy
  | 3 => .set (second op) target copy

/-- The table after `CB`. -/
def bits (op : Byte) : Instruction :=
  match Reg8.ofCode? (third op) with
  | some name => bitOperation op (.register name) none
  | none => bitOperation op (.memory (.pair .hl)) none

/-- The table after `DD CB` and `FD CB`.  All operations are on the byte in memory;
the register that the opcode names receives a copy. -/
def indexedBits (x : Index) (d op : Byte) : Instruction :=
  bitOperation op (.memory (.indexed x d)) (Reg8.ofCode? (third op))

/-- Opcodes after `ED` that begin with the digit 1. -/
def extendedRow1 (op : Byte) (y z : Fin 8) : Reader Instruction :=
  match z with
  | 0 => .done (.inC (Reg8.ofCode? y))
  | 1 => .done (.outC (Reg8.ofCode? y))
  | 2 =>
      if odd y then .done (.adcWord (Pointer.hl.pair (half y)))
      else .done (.sbcWord (Pointer.hl.pair (half y)))
  | 3 =>
      if odd y then .word fun nn => .done (.ldWord (Pointer.hl.pair (half y)) (.memory nn))
      else .word fun nn => .done (.storeWord nn (Pointer.hl.pair (half y)))
  | 4 => .done (.adjust .neg)
  | 5 => if odd y then .done .reti else .done .retn
  | 6 =>
      match y with
      | 2 | 6 => .done (.im 1)
      | 3 | 7 => .done (.im 2)
      | _ => .done (.im 0)
  | 7 =>
      match y with
      | 0 => .done (.storeControl .i)
      | 1 => .done (.storeControl .r)
      | 2 => .done (.loadControl .i)
      | 3 => .done (.loadControl .r)
      | 4 => .done .rrd
      | 5 => .done .rld
      | _ => .done (.undefined op)

/-- The block operation with a given digit. -/
def blockOperation? : Fin 8 → Option BlockOperation
  | 0 => some .load
  | 1 => some .compare
  | 2 => some .input
  | 3 => some .output
  | _ => none

/-- Opcodes after `ED` that begin with the digit 2: the block instructions. -/
def extendedRow2 (op : Byte) (y z : Fin 8) : Instruction :=
  match y, blockOperation? z with
  | 4, some block => .block block .up false
  | 5, some block => .block block .down false
  | 6, some block => .block block .up true
  | 7, some block => .block block .down true
  | _, _ => .undefined op

/-- The table after `ED`. -/
def extended (op : Byte) : Reader Instruction :=
  match first op with
  | 1 => extendedRow1 op (second op) (third op)
  | 2 => .done (extendedRow2 op (second op) (third op))
  | _ => .done (.undefined op)

/-- Whether a byte deprives a `DD` or `FD` before it of its effect. -/
def overridesPrefix (b : Byte) : Bool := b == 0xDD || b == 0xED || b == 0xFD

/-- What follows `DD` or `FD`. -/
def indexed (x : Index) : Reader Instruction :=
  .peek fun
    | none => .done .idlePrefix
    | some b =>
        if overridesPrefix b then .done .idlePrefix
        else .opcode fun op =>
          if op = 0xCB then .operand fun d => .operand fun op => .done (indexedBits x d op)
          else mainTable (.index x) op

end Encoding

/-- Reads one instruction. -/
def Instruction.reader : Reader Instruction :=
  .opcode fun op =>
    if op = 0xCB then .opcode fun op => .done (Encoding.bits op)
    else if op = 0xED then .opcode Encoding.extended
    else if op = 0xDD then Encoding.indexed .ix
    else if op = 0xFD then Encoding.indexed .iy
    else Encoding.mainTable .hl op

/-- The instruction at the start of a list of bytes. -/
def Instruction.ofBytes (bytes : List Byte) : Instruction := (reader.parse bytes).1

/-- The number of bytes of the instruction at the start of a list of bytes. -/
def Instruction.length (bytes : List Byte) : Nat := (reader.parse bytes).2

end Z80Machine
