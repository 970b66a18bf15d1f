import Z80Machine.Instruction.Text

/-!
# Disassembly

The line for an instruction straight from its bytes, for traces and listings.
The disassembler names operands from tables of its own, indexed by the digits of
an opcode, and builds no instruction on the way.  Bytes that are missing read as
zero, and a `DD` or `FD` byte with nothing behind it is written like one that
has no effect.
-/

namespace Z80Machine
namespace Disassembly

/-- The byte operand with a given code. -/
def byteOperand (code : Fin 8) : String :=
  #v["B", "C", "D", "E", "H", "L", "(HL)", "A"].get code

/-- The condition with a given code. -/
def condition (code : Fin 8) : String :=
  #v["NZ", "Z", "NC", "C", "PO", "PE", "P", "M"].get code

/-- How the operation with a given code begins, up to its second operand. -/
def operation (code : Fin 8) : String :=
  #v["ADD A,", "ADC A,", "SUB ", "SBC A,", "AND ", "XOR ", "OR ", "CP "].get code

/-- The operation on the accumulator and the flags with a given code. -/
def adjustment (code : Fin 8) : String :=
  #v["RLCA", "RRCA", "RLA", "RRA", "DAA", "CPL", "SCF", "CCF"].get code

/-- The shift with a given code. -/
def shift (code : Fin 8) : String :=
  #v["RLC", "RRC", "RL", "RR", "SLA", "SRA", "SLL", "SRL"].get code

/-- The interrupt mode that a digit selects. -/
def mode (code : Fin 8) : String := #v["0", "0", "1", "2", "0", "0", "1", "2"].get code

/-- The block instruction with a given way through memory, first once and then
repeated, and a given operation. -/
def block (way operation : Fin 4) : String :=
  (#v[#v["LDI", "CPI", "INI", "OUTI"], #v["LDD", "CPD", "IND", "OUTD"],
    #v["LDIR", "CPIR", "INIR", "OTIR"], #v["LDDR", "CPDR", "INDR", "OTDR"]].get way).get operation

/-- The name of the word register that takes the part of HL. -/
def pointer : Pointer → String
  | .hl => "HL"
  | .index .ix => "IX"
  | .index .iy => "IY"

/-- The byte in memory at a distance from an index register. -/
def indexed (x : Index) (d : Byte) : String :=
  if d.msb then "(" ++ pointer (.index x) ++ "-$" ++ Hex.byte (-d) ++ ")"
  else "(" ++ pointer (.index x) ++ "+$" ++ Hex.byte d ++ ")"

/-- Reads a byte as a number. -/
def byte (next : String → Reader String) : Reader String :=
  .operand fun n => next ("$" ++ Hex.byte n)

/-- Reads a word as a number. -/
def word (next : String → Reader String) : Reader String :=
  .word fun nn => next ("$" ++ Hex.word nn)

/-- Reads the distance of a relative jump, which is counted from the two bytes of the
jump itself. -/
def relative (next : String → Reader String) : Reader String :=
  .operand fun d => next (Text.relative (d.toInt + 2))

/-- Reads the byte operand with a given code. -/
def operand (p : Pointer) (code : Fin 8) (next : String → Reader String) : Reader String :=
  match p, code with
  | .hl, 6 => next "(HL)"
  | .index x, 6 => .operand fun d => next (indexed x d)
  | .index _, 4 | .index _, 5 => next (pointer p ++ byteOperand code)
  | _, _ => next (byteOperand code)

/-- The word operand with a given code. -/
def wordOperand (p : Pointer) (code : Fin 4) : String :=
  #v["BC", "DE", pointer p, "SP"].get code

/-- The word operand with a given code, where the stack is concerned. -/
def stackOperand (p : Pointer) (code : Fin 4) : String :=
  #v["BC", "DE", pointer p, "AF"].get code

open Encoding (first second third half odd)

/-- Opcodes that begin with the digit 0. -/
def row0 (p : Pointer) (y z : Fin 8) : Reader String :=
  match z with
  | 0 =>
      match y with
      | 0 => .done "NOP"
      | 1 => .done "EX AF,AF'"
      | 2 => relative fun e => .done ("DJNZ " ++ e)
      | 3 => relative fun e => .done ("JR " ++ e)
      | _ => relative fun e => .done ("JR " ++ condition ⟨y.val - 4, by omega⟩ ++ "," ++ e)
  | 1 =>
      if odd y then .done ("ADD " ++ pointer p ++ "," ++ wordOperand p (half y))
      else word fun nn => .done ("LD " ++ wordOperand p (half y) ++ "," ++ nn)
  | 2 =>
      match y with
      | 0 => .done "LD (BC),A"
      | 1 => .done "LD A,(BC)"
      | 2 => .done "LD (DE),A"
      | 3 => .done "LD A,(DE)"
      | 4 => word fun nn => .done ("LD (" ++ nn ++ ")," ++ pointer p)
      | 5 => word fun nn => .done ("LD " ++ pointer p ++ ",(" ++ nn ++ ")")
      | 6 => word fun nn => .done ("LD (" ++ nn ++ "),A")
      | _ => word fun nn => .done ("LD A,(" ++ nn ++ ")")
  | 3 => .done ((if odd y then "DEC " else "INC ") ++ wordOperand p (half y))
  | 4 => operand p y fun target => .done ("INC " ++ target)
  | 5 => operand p y fun target => .done ("DEC " ++ target)
  | 6 => operand p y fun target => byte fun n => .done ("LD " ++ target ++ "," ++ n)
  | _ => .done (adjustment y)

/-- Opcodes that begin with the digit 1.  Beside a byte in memory the other operand is
never a half of an index register. -/
def row1 (p : Pointer) (y z : Fin 8) : Reader String :=
  if y.val = 6 ∧ z.val = 6 then .done "HALT"
  else
    let pick (code : Fin 8) : Pointer :=
      if (y.val = 6 ∨ z.val = 6) ∧ code.val ≠ 6 then .hl else p
    operand (pick y) y fun target => operand (pick z) z fun source =>
      .done ("LD " ++ target ++ "," ++ source)

/-- Opcodes that begin with the digit 2. -/
def row2 (p : Pointer) (y z : Fin 8) : Reader String :=
  operand p z fun source => .done (operation y ++ source)

/-- Opcodes that begin with the digit 3, without those that select another table. -/
def row3 (p : Pointer) (y z : Fin 8) : Reader String :=
  match z with
  | 0 => .done ("RET " ++ condition y)
  | 1 =>
      if odd y then
        match half y with
        | 0 => .done "RET"
        | 1 => .done "EXX"
        | 2 => .done ("JP (" ++ pointer p ++ ")")
        | _ => .done ("LD SP," ++ pointer p)
      else .done ("POP " ++ stackOperand p (half y))
  | 2 => word fun nn => .done ("JP " ++ condition y ++ "," ++ nn)
  | 3 =>
      match y with
      | 0 => word fun nn => .done ("JP " ++ nn)
      | 1 => .done "NOP*"
      | 2 => byte fun n => .done ("OUT (" ++ n ++ "),A")
      | 3 => byte fun n => .done ("IN A,(" ++ n ++ ")")
      | 4 => .done ("EX (SP)," ++ pointer p)
      | 5 => .done "EX DE,HL"
      | 6 => .done "DI"
      | _ => .done "EI"
  | 4 => word fun nn => .done ("CALL " ++ condition y ++ "," ++ nn)
  | 5 =>
      if odd y then
        match half y with
        | 0 => word fun nn => .done ("CALL " ++ nn)
        | _ => .done "NOP*"
      else .done ("PUSH " ++ stackOperand p (half y))
  | 6 => byte fun n => .done (operation y ++ n)
  | _ => .done ("RST $" ++ Hex.byte (BitVec.ofNat 8 (8 * y.val)))

/-- The main table. -/
def mainTable (p : Pointer) (op : Byte) : Reader String :=
  match first op with
  | 0 => row0 p (second op) (third op)
  | 1 => row1 p (second op) (third op)
  | 2 => row2 p (second op) (third op)
  | _ => row3 p (second op) (third op)

/-- A bit operation on an operand. -/
def bitOperation (op : Byte) (target : String) : String :=
  let n := toString (second op).val
  match first op with
  | 0 => shift (second op) ++ " " ++ target
  | 1 => "BIT " ++ n ++ "," ++ target
  | 2 => "RES " ++ n ++ "," ++ target
  | _ => "SET " ++ n ++ "," ++ target

/-- The table after `CB`. -/
def bits (op : Byte) : String := bitOperation op (byteOperand (third op))

/-- The table after `DD CB` and `FD CB`.  A register that receives a copy is written as
one more operand. -/
def indexedBits (x : Index) (d op : Byte) : String :=
  let line := bitOperation op (indexed x d)
  if (first op).val = 1 ∨ (third op).val = 6 then line else line ++ "," ++ byteOperand (third op)

/-- A byte after `ED` that names no instruction. -/
def data (op : Byte) : String := "DB $ED,$" ++ Hex.byte op

/-- Opcodes after `ED` that begin with the digit 1. -/
def extendedRow1 (op : Byte) (y z : Fin 8) : Reader String :=
  match z with
  | 0 => .done (if y.val = 6 then "IN (C)" else "IN " ++ byteOperand y ++ ",(C)")
  | 1 => .done (if y.val = 6 then "OUT (C),0" else "OUT (C)," ++ byteOperand y)
  | 2 => .done ((if odd y then "ADC" else "SBC") ++ " HL," ++ wordOperand .hl (half y))
  | 3 =>
      if odd y then word fun nn => .done ("LD " ++ wordOperand .hl (half y) ++ ",(" ++ nn ++ ")")
      else word fun nn => .done ("LD (" ++ nn ++ ")," ++ wordOperand .hl (half y))
  | 4 => .done "NEG"
  | 5 => .done (if odd y then "RETI" else "RETN")
  | 6 => .done ("IM " ++ mode y)
  | _ =>
      match y with
      | 0 => .done "LD I,A"
      | 1 => .done "LD R,A"
      | 2 => .done "LD A,I"
      | 3 => .done "LD A,R"
      | 4 => .done "RRD"
      | 5 => .done "RLD"
      | _ => .done (data op)

/-- Opcodes after `ED` that begin with the digit 2. -/
def extendedRow2 (op : Byte) (y z : Fin 8) : String :=
  if h : z.val < 4 ∧ 4 ≤ y.val then block ⟨y.val - 4, by omega⟩ ⟨z.val, h.1⟩ else data op

/-- The table after `ED`. -/
def extended (op : Byte) : Reader String :=
  match first op with
  | 1 => extendedRow1 op (second op) (third op)
  | 2 => .done (extendedRow2 op (second op) (third op))
  | _ => .done (data op)

/-- What follows `DD` or `FD`. -/
def afterPrefix (x : Index) : Reader String :=
  .peek fun
    | none | some 0xDD | some 0xED | some 0xFD => .done "NOP*"
    | some _ =>
        .opcode fun op =>
          if op = 0xCB then .operand fun d => .operand fun op => .done (indexedBits x d op)
          else mainTable (.index x) op

/-- Reads one instruction as a line of text. -/
def reader : Reader String :=
  .opcode fun op =>
    match op with
    | 0xCB => .opcode fun op => .done (bits op)
    | 0xDD => afterPrefix .ix
    | 0xED => .opcode extended
    | 0xFD => afterPrefix .iy
    | _ => mainTable .hl op

end Disassembly

namespace Instruction

/-- The line for the instruction at the start of a list of bytes. -/
def disassemble (bytes : List Byte) : String := (Disassembly.reader.parse bytes).1

/-- How many bytes the disassembler takes for its line. -/
def disassembledLength (bytes : List Byte) : Nat := (Disassembly.reader.parse bytes).2

end Instruction
end Z80Machine
