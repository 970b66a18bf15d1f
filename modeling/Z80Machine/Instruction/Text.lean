import Z80Machine.Instruction.Encoding

/-!
# Assembly text

An instruction is written as a name and operands.  Numbers are hexadecimal with
a `$` in front; the target of a relative jump is written as its distance from the
instruction's own address `$`, in decimal.
-/

namespace Z80Machine

/-- A line of assembly text: a name and its operands. -/
structure Statement where
  name : String
  operands : List String := []
  deriving DecidableEq

/-- The line itself, with commas between the operands. -/
def Statement.text (s : Statement) : String :=
  if s.operands.isEmpty then s.name else s.name ++ " " ++ ",".intercalate s.operands

/-- The name of a byte register. -/
def Reg8.text : Reg8 → String
  | .a => "A"
  | .f => "F"
  | .b => "B"
  | .c => "C"
  | .d => "D"
  | .e => "E"
  | .h => "H"
  | .l => "L"
  | .ixh => "IXH"
  | .ixl => "IXL"
  | .iyh => "IYH"
  | .iyl => "IYL"
  | .i => "I"
  | .r => "R"

/-- The name of a word register. -/
def Reg16.text : Reg16 → String
  | .af => "AF"
  | .bc => "BC"
  | .de => "DE"
  | .hl => "HL"
  | .af' => "AF'"
  | .bc' => "BC'"
  | .de' => "DE'"
  | .hl' => "HL'"
  | .ix => "IX"
  | .iy => "IY"
  | .sp => "SP"
  | .pc => "PC"

namespace Text

/-- A byte as an operand. -/
def byte (n : Byte) : String := "$" ++ Hex.byte n

/-- A word as an operand. -/
def word (nn : Word) : String := "$" ++ Hex.word nn

/-- An operand that stands for what it points to. -/
def indirect (operand : String) : String := "(" ++ operand ++ ")"

/-- A distance from an index register, with its sign. -/
def distance (d : Byte) : String :=
  if d.msb then "-" ++ byte (-d) else "+" ++ byte d

/-- A distance in bytes from the address of the instruction, with its sign. -/
def relative (e : Int) : String :=
  if e = 0 then "$"
  else if 0 < e then "$+" ++ toString e.toNat
  else "$-" ++ toString (-e).toNat

end Text

/-- The text of an address, in brackets. -/
def Address.text : Address → String
  | .pair name => Text.indirect name.text
  | .indexed x d => Text.indirect (x.register.text ++ Text.distance d)
  | .direct nn => Text.indirect (Text.word nn)

/-- The text of a place. -/
def Place.text : Place → String
  | .register name => name.text
  | .memory a => a.text

/-- The text of a source. -/
def Source.text : Source → String
  | .place p => p.text
  | .immediate n => Text.byte n

/-- The text of a source of a word. -/
def WordSource.text : WordSource → String
  | .register name => name.text
  | .immediate nn => Text.word nn
  | .memory nn => Text.indirect (Text.word nn)

/-- The text of a condition. -/
def Condition.text : Condition → String
  | .nz => "NZ"
  | .z => "Z"
  | .nc => "NC"
  | .c => "C"
  | .po => "PO"
  | .pe => "PE"
  | .p => "P"
  | .m => "M"

/-- The name of an operation. -/
def Operation.text : Operation → String
  | .add => "ADD"
  | .adc => "ADC"
  | .sub => "SUB"
  | .sbc => "SBC"
  | .and => "AND"
  | .xor => "XOR"
  | .or => "OR"
  | .cp => "CP"

/-- Whether the accumulator is written as an operand of an operation. -/
def Operation.namesAccumulator : Operation → Bool
  | .add | .adc | .sbc => true
  | _ => false

/-- The name of an adjustment. -/
def Adjustment.text : Adjustment → String
  | .rlca => "RLCA"
  | .rrca => "RRCA"
  | .rla => "RLA"
  | .rra => "RRA"
  | .daa => "DAA"
  | .cpl => "CPL"
  | .scf => "SCF"
  | .ccf => "CCF"
  | .neg => "NEG"

/-- The name of a shift. -/
def Shift.text : Shift → String
  | .rlc => "RLC"
  | .rrc => "RRC"
  | .rl => "RL"
  | .rr => "RR"
  | .sla => "SLA"
  | .sra => "SRA"
  | .sll => "SLL"
  | .srl => "SRL"

/-- The name of a control register. -/
def ControlRegister.text : ControlRegister → String
  | .i => "I"
  | .r => "R"

/-- The name of a block instruction. -/
def BlockOperation.text (op : BlockOperation) (dir : Direction) (repeats : Bool) : String :=
  match op, dir, repeats with
  | .load, .up, false => "LDI"
  | .compare, .up, false => "CPI"
  | .input, .up, false => "INI"
  | .output, .up, false => "OUTI"
  | .load, .down, false => "LDD"
  | .compare, .down, false => "CPD"
  | .input, .down, false => "IND"
  | .output, .down, false => "OUTD"
  | .load, .up, true => "LDIR"
  | .compare, .up, true => "CPIR"
  | .input, .up, true => "INIR"
  | .output, .up, true => "OTIR"
  | .load, .down, true => "LDDR"
  | .compare, .down, true => "CPDR"
  | .input, .down, true => "INDR"
  | .output, .down, true => "OTDR"

namespace Instruction

/-- The operand for a condition, if there is one. -/
def conditionOperand (cond : Option Condition) : List String := (cond.map (·.text)).toList

/-- The operand for the register that receives a copy, if there is one. -/
def copyOperand (copy : Option Reg8) : List String := (copy.map (·.text)).toList

/-- The statement for an instruction.  The distance of a relative jump is counted
from the two bytes of the jump itself. -/
def statement : Instruction → Statement
  | .nop => { name := "NOP" }
  | .idlePrefix => { name := "NOP*" }
  | .ld target source => { name := "LD", operands := [target.text, source.text] }
  | .ldWord target source => { name := "LD", operands := [target.text, source.text] }
  | .storeWord nn source =>
      { name := "LD", operands := [Text.indirect (Text.word nn), source.text] }
  | .storeControl target => { name := "LD", operands := [target.text, "A"] }
  | .loadControl source => { name := "LD", operands := ["A", source.text] }
  | .push source => { name := "PUSH", operands := [source.text] }
  | .pop target => { name := "POP", operands := [target.text] }
  | .exAf => { name := "EX", operands := ["AF", "AF'"] }
  | .exx => { name := "EXX" }
  | .exDeHl => { name := "EX", operands := ["DE", "HL"] }
  | .exStack name => { name := "EX", operands := ["(SP)", name.text] }
  | .operate op source =>
      { name := op.text
        operands := if op.namesAccumulator then ["A", source.text] else [source.text] }
  | .inc target => { name := "INC", operands := [target.text] }
  | .dec target => { name := "DEC", operands := [target.text] }
  | .adjust op => { name := op.text }
  | .addWord target source => { name := "ADD", operands := [target.text, source.text] }
  | .adcWord source => { name := "ADC", operands := ["HL", source.text] }
  | .sbcWord source => { name := "SBC", operands := ["HL", source.text] }
  | .incWord target => { name := "INC", operands := [target.text] }
  | .decWord target => { name := "DEC", operands := [target.text] }
  | .shift op target copy => { name := op.text, operands := target.text :: copyOperand copy }
  | .bit n target => { name := "BIT", operands := [toString n.val, target.text] }
  | .res n target copy =>
      { name := "RES", operands := toString n.val :: target.text :: copyOperand copy }
  | .set n target copy =>
      { name := "SET", operands := toString n.val :: target.text :: copyOperand copy }
  | .rld => { name := "RLD" }
  | .rrd => { name := "RRD" }
  | .jp cond nn => { name := "JP", operands := conditionOperand cond ++ [Text.word nn] }
  | .jpRegister source => { name := "JP", operands := [Text.indirect source.text] }
  | .jr cond d =>
      { name := "JR", operands := conditionOperand cond ++ [Text.relative (d.toInt + 2)] }
  | .djnz d => { name := "DJNZ", operands := [Text.relative (d.toInt + 2)] }
  | .call cond nn => { name := "CALL", operands := conditionOperand cond ++ [Text.word nn] }
  | .ret cond => { name := "RET", operands := conditionOperand cond }
  | .rst vector => { name := "RST", operands := [Text.byte vector] }
  | .reti => { name := "RETI" }
  | .retn => { name := "RETN" }
  | .inA n => { name := "IN", operands := ["A", Text.indirect (Text.byte n)] }
  | .outA n => { name := "OUT", operands := [Text.indirect (Text.byte n), "A"] }
  | .inC none => { name := "IN", operands := ["(C)"] }
  | .inC (some target) => { name := "IN", operands := [target.text, "(C)"] }
  | .outC none => { name := "OUT", operands := ["(C)", "0"] }
  | .outC (some source) => { name := "OUT", operands := ["(C)", source.text] }
  | .block op dir repeats => { name := op.text dir repeats }
  | .halt => { name := "HALT" }
  | .di => { name := "DI" }
  | .ei => { name := "EI" }
  | .im mode => { name := "IM", operands := [toString mode.val] }
  | .undefined opcode => { name := "DB", operands := [Text.byte 0xED, Text.byte opcode] }

/-- The line for an instruction. -/
def text (i : Instruction) : String := i.statement.text

end Instruction
end Z80Machine
