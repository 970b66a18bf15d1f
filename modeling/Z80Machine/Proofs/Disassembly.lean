import Mathlib.Data.Fintype.Basic
import Mathlib.Tactic.FinCases
import Z80Machine.Instruction.Disassembly

/-!
# The disassembler prints what is encoded

The disassembler and the encoding tables are two readings of the same bytes.  The
first part compares the tables of names with the codes they stand for.  From this
each row of the disassembler is the row of the encoding with every instruction
replaced by its line, and so is the disassembler as a whole (`reader_eq_map_text`):
it takes the same bytes, in the same way, and writes the instruction found there.
-/

namespace Z80Machine

namespace Statement

@[simp] theorem text_nil (name : String) : text { name } = name := rfl

@[simp] theorem text_one (name x : String) :
    text { name, operands := [x] } = name ++ " " ++ x := rfl

@[simp] theorem text_two (name x y : String) :
    text { name, operands := [x, y] } = name ++ " " ++ (x ++ "," ++ y) := rfl

@[simp] theorem text_three (name x y z : String) :
    text { name, operands := [x, y, z] } = name ++ " " ++ (x ++ "," ++ y ++ "," ++ z) := rfl

end Statement

namespace Disassembly

open Encoding

/-! ### Names and codes -/

@[simp] theorem pointer_eq (p : Pointer) : pointer p = p.register.text := by
  rcases p with _ | _ | _ <;> rfl

@[simp] theorem wordOperand_eq (p : Pointer) (code : Fin 4) :
    wordOperand p code = (p.pair code).text := by
  rcases p with _ | _ | _ <;> fin_cases code <;> rfl

@[simp] theorem stackOperand_eq (p : Pointer) (code : Fin 4) :
    stackOperand p code = (p.stackPair code).text := by
  rcases p with _ | _ | _ <;> fin_cases code <;> rfl

@[simp] theorem condition_eq (code : Fin 8) : condition code = (Condition.ofCode code).text := by
  fin_cases code <;> rfl

@[simp] theorem adjustment_eq (code : Fin 8) :
    adjustment code = (Adjustment.ofCode code).text := by
  fin_cases code <;> rfl

@[simp] theorem shift_eq (code : Fin 8) : shift code = (Shift.ofCode code).text := by
  fin_cases code <;> rfl

theorem byteOperand_eq {code : Fin 8} {name : Reg8} (h : Reg8.ofCode? code = some name) :
    byteOperand code = name.text := by
  revert h
  fin_cases code <;> rintro ⟨⟩ <;> rfl

/-- The beginning of an operation and its second operand are its line. -/
theorem operation_append (code : Fin 8) (source : Source) :
    operation code ++ source.text = Instruction.text (.operate (.ofCode code) source) := by
  fin_cases code <;>
    simp [operation, Vector.get, Operation.ofCode, Instruction.text, Instruction.statement,
      Operation.namesAccumulator, Operation.text, ← String.toList_inj]

@[simp] theorem indexed_eq (x : Index) (d : Byte) : indexed x d = (Address.indexed x d).text := by
  cases hsign : d.msb <;>
    simp [indexed, Address.text, Text.distance, hsign, Text.indirect, Text.byte,
      Pointer.register, ← String.toList_inj]

/-! ### Operands -/

/-- What follows a number is read alike if it is written alike. -/
theorem byte_eq {next : String → Reader String} {next' : Byte → Reader Instruction}
    (h : ∀ n, next (Text.byte n) = (next' n).map Instruction.text) :
    byte next = (Reader.operand next').map Instruction.text :=
  congrArg Reader.operand (funext h)

theorem word_eq {next : String → Reader String} {next' : Word → Reader Instruction}
    (h : ∀ nn, next (Text.word nn) = (next' nn).map Instruction.text) :
    word next = (Reader.word next').map Instruction.text :=
  congrArg Reader.operand (funext fun low => congrArg Reader.operand (funext fun high =>
    h (.ofBytes high low)))

theorem relative_eq {next : String → Reader String} {next' : Byte → Reader Instruction}
    (h : ∀ d : Byte, next (Text.relative (d.toInt + 2)) = (next' d).map Instruction.text) :
    relative next = (Reader.operand next').map Instruction.text :=
  congrArg Reader.operand (funext h)

/-- A byte in memory is written and read alike. -/
theorem operand_memory {p : Pointer} {next : String → Reader String}
    {next' : Address → Reader Instruction}
    (h : ∀ a : Address, next a.text = (next' a).map Instruction.text) :
    operand p 6 next = (p.address next').map Instruction.text := by
  cases p with
  | hl => exact h (.pair .hl)
  | index x =>
      refine congrArg Reader.operand (funext fun d => ?_)
      rw [indexed_eq]
      exact h (.indexed x d)

/-- A byte register is written by its name. -/
theorem operand_register {p : Pointer} {code : Fin 8} {name : Reg8}
    (hname : Reg8.ofCode? code = some name) (next : String → Reader String) :
    operand p code next = next (p.substitute name).text := by
  revert hname
  rcases p with _ | _ | _ <;> fin_cases code <;> rintro ⟨⟩ <;> rfl

theorem ofCode?_eq_none_iff {code : Fin 8} : Reg8.ofCode? code = none ↔ code = 6 := by
  fin_cases code <;> simp [Reg8.ofCode?]

theorem operand_eq {p : Pointer} {code : Fin 8} {next : String → Reader String}
    {next' : Place → Reader Instruction}
    (h : ∀ place : Place, next place.text = (next' place).map Instruction.text) :
    operand p code next = (p.place code next').map Instruction.text := by
  unfold Pointer.place
  split
  · next name hname =>
      rw [operand_register hname]
      exact h (.register (p.substitute name))
  · next hnone =>
      obtain rfl := ofCode?_eq_none_iff.mp hnone
      exact operand_memory fun a => h (.memory a)

/-! ### Rows -/

/-- A line without anything still to be read. -/
theorem done_eq {line : String} {i : Instruction} (h : line = i.text) :
    Reader.done line = (Reader.done i).map Instruction.text :=
  congrArg Reader.done h

-- Two lines are compared letter by letter once their operands are spelled out.
attribute [local simp] Instruction.text Instruction.statement Instruction.conditionOperand
  Instruction.copyOperand Place.text Source.text WordSource.text Address.text Text.indirect
  Text.byte Text.word String.append_assoc

theorem val_six : (6 : Fin 8).val = 6 := rfl

/-- Only the code 6 names no register. -/
theorem val_ne_six {code : Fin 8} {name : Reg8} (h : Reg8.ofCode? code = some name) :
    code.val ≠ 6 := by
  intro hval
  obtain rfl : code = 6 := Fin.ext hval
  contradiction

theorem row0_eq (p : Pointer) (y z : Fin 8) :
    row0 p y z = (mainRow0 p y z).map Instruction.text := by
  match z with
  | 0 =>
      fin_cases y <;> simp only [row0, mainRow0, Encoding.relative]
      · exact done_eq rfl
      · exact done_eq rfl
      all_goals exact relative_eq fun d => done_eq rfl
  | 1 =>
      simp only [row0, mainRow0]
      split
      · exact done_eq (by simp)
      · exact word_eq fun nn => done_eq (by simp)
  | 2 =>
      fin_cases y <;> simp only [row0, mainRow0]
      · exact done_eq rfl
      · exact done_eq rfl
      · exact done_eq rfl
      · exact done_eq rfl
      all_goals exact word_eq fun nn => done_eq (by simp [Reg8.text, ← String.toList_inj])
  | 3 =>
      simp only [row0, mainRow0]
      split <;> exact done_eq (by simp)
  | 4 =>
      simp only [row0, mainRow0]
      exact operand_eq fun place => done_eq rfl
  | 5 =>
      simp only [row0, mainRow0]
      exact operand_eq fun place => done_eq rfl
  | 6 =>
      simp only [row0, mainRow0]
      exact operand_eq fun place => byte_eq fun n => done_eq (by simp)
  | 7 => exact done_eq (adjustment_eq y)

theorem row1_eq (p : Pointer) (y z : Fin 8) :
    row1 p y z = (mainRow1 p y z).map Instruction.text := by
  unfold mainRow1
  split
  · next hy hz =>
      obtain rfl := ofCode?_eq_none_iff.mp hy
      obtain rfl := ofCode?_eq_none_iff.mp hz
      exact done_eq rfl
  · next source hy hz =>
      -- beside a byte in memory H and L keep their names
      obtain rfl := ofCode?_eq_none_iff.mp hy
      simp only [row1, val_six, val_ne_six hz, and_false, if_false, true_or, ne_eq, not_true,
        and_true, not_false_eq_true, if_true]
      refine operand_memory fun a => ?_
      rw [operand_register hz]
      exact done_eq (by simp [Pointer.substitute])
  · next target hy hz =>
      obtain rfl := ofCode?_eq_none_iff.mp hz
      simp only [row1, val_six, val_ne_six hy, and_true, if_false, or_true, ne_eq, not_true,
        and_false, not_false_eq_true, if_true]
      rw [operand_register hy]
      exact operand_memory fun a => done_eq (by simp [Pointer.substitute])
  · next target source hy hz =>
      simp only [row1, val_ne_six hy, val_ne_six hz, false_and, if_false, or_false]
      rw [operand_register hy, operand_register hz]
      exact done_eq (by simp)

theorem row2_eq (p : Pointer) (y z : Fin 8) :
    row2 p y z = (mainRow2 p y z).map Instruction.text :=
  operand_eq fun place => done_eq (operation_append y (.place place))

theorem row3_eq (p : Pointer) (y z : Fin 8) :
    row3 p y z = (mainRow3 p y z).map Instruction.text := by
  have hsp : Reg16.sp.text = "SP" := rfl
  match z with
  | 0 =>
      simp only [row3, mainRow3]
      exact done_eq (by simp)
  | 1 =>
      fin_cases y
      · exact done_eq (by simp)
      · exact done_eq rfl
      · exact done_eq (by simp)
      · exact done_eq rfl
      · exact done_eq (by simp)
      · exact done_eq (by simp [← String.toList_inj])
      · exact done_eq (by simp)
      · exact done_eq (by simp [hsp, ← String.toList_inj])
  | 2 =>
      simp only [row3, mainRow3]
      exact word_eq fun nn => done_eq (by simp)
  | 3 =>
      fin_cases y <;> simp only [row3, mainRow3]
      · exact word_eq fun nn => done_eq (by simp)
      · exact done_eq rfl
      · exact byte_eq fun nn => done_eq (by simp [← String.toList_inj])
      · exact byte_eq fun nn => done_eq (by simp [← String.toList_inj])
      · exact done_eq (by simp [← String.toList_inj])
      · exact done_eq rfl
      · exact done_eq rfl
      · exact done_eq rfl
  | 4 =>
      simp only [row3, mainRow3]
      exact word_eq fun nn => done_eq (by simp)
  | 5 =>
      fin_cases y
      · exact done_eq (by simp)
      · show word (fun nn => .done ("CALL " ++ nn)) =
          (Reader.word fun nn => .done (.call none nn)).map Instruction.text
        exact word_eq fun nn => done_eq rfl
      · exact done_eq (by simp)
      · exact done_eq rfl
      · exact done_eq (by simp)
      · exact done_eq rfl
      · exact done_eq (by simp)
      · exact done_eq rfl
  | 6 =>
      simp only [row3, mainRow3]
      exact byte_eq fun n => done_eq (operation_append y (.immediate n))
  | 7 =>
      simp only [row3, mainRow3]
      exact done_eq (by simp [← String.toList_inj])

theorem mainTable_eq (p : Pointer) (op : Byte) :
    mainTable p op = (Encoding.mainTable p op).map Instruction.text := by
  unfold mainTable Encoding.mainTable
  generalize first op = x
  match x with
  | 0 => exact row0_eq p (second op) (third op)
  | 1 => exact row1_eq p (second op) (third op)
  | 2 => exact row2_eq p (second op) (third op)
  | 3 => exact row3_eq p (second op) (third op)

/-! ### Bit operations -/

/-- The line for a bit operation whose result has no copy. -/
theorem bitOperation_eq (op : Byte) (target : Place) :
    bitOperation op target.text = (Encoding.bitOperation op target none).text := by
  unfold bitOperation Encoding.bitOperation
  generalize first op = x
  fin_cases x <;> simp

/-- A register that receives a copy is one more operand; a test has no result to copy. -/
theorem text_bitOperation_some (op : Byte) (target : Place) (name : Reg8) :
    (Encoding.bitOperation op target (some name)).text =
      if (first op).val = 1 then bitOperation op target.text
      else bitOperation op target.text ++ "," ++ name.text := by
  unfold bitOperation Encoding.bitOperation
  generalize first op = x
  fin_cases x <;> simp

theorem bits_eq (op : Byte) : bits op = (Encoding.bits op).text := by
  unfold bits Encoding.bits
  split
  · next name hname =>
      rw [byteOperand_eq hname]
      exact bitOperation_eq op (.register name)
  · next hnone =>
      rw [ofCode?_eq_none_iff.mp hnone]
      exact bitOperation_eq op (.memory (.pair .hl))

theorem indexedBits_eq (x : Index) (d op : Byte) :
    indexedBits x d op = (Encoding.indexedBits x d op).text := by
  unfold indexedBits Encoding.indexedBits
  rw [indexed_eq]
  cases hcopy : Reg8.ofCode? (third op) with
  | none =>
      simp only [ofCode?_eq_none_iff.mp hcopy, val_six, or_true, if_true]
      exact bitOperation_eq op (.memory (.indexed x d))
  | some name =>
      simp only [val_ne_six hcopy, or_false, byteOperand_eq hcopy]
      exact (text_bitOperation_some op (.memory (.indexed x d)) name).symm

/-! ### The table after `ED` -/

theorem data_eq (op : Byte) : data op = (Instruction.undefined op).text := by
  have hprefix : Hex.byte 0xED#8 = "ED" := by decide
  simp [data, hprefix, ← String.toList_inj]

theorem extendedRow1_eq (op : Byte) (y z : Fin 8) :
    extendedRow1 op y z = (Encoding.extendedRow1 op y z).map Instruction.text := by
  match z with
  | 0 => fin_cases y <;> exact done_eq rfl
  | 1 => fin_cases y <;> exact done_eq rfl
  | 2 =>
      simp only [extendedRow1, Encoding.extendedRow1]
      split <;> exact done_eq (by simp [← String.toList_inj])
  | 3 =>
      simp only [extendedRow1, Encoding.extendedRow1]
      split
      · exact word_eq fun nn => done_eq (by simp [← String.toList_inj])
      · exact word_eq fun nn => done_eq (by simp [← String.toList_inj])
  | 4 => exact done_eq rfl
  | 5 =>
      simp only [extendedRow1, Encoding.extendedRow1]
      split <;> exact done_eq rfl
  | 6 => fin_cases y <;> exact done_eq rfl
  | 7 =>
      fin_cases y
      · exact done_eq rfl
      · exact done_eq rfl
      · exact done_eq rfl
      · exact done_eq rfl
      · exact done_eq rfl
      · exact done_eq rfl
      · exact done_eq (data_eq op)
      · exact done_eq (data_eq op)

theorem extendedRow2_eq (op : Byte) (y z : Fin 8) :
    extendedRow2 op y z = (Encoding.extendedRow2 op y z).text := by
  fin_cases y <;> fin_cases z
  all_goals first | exact data_eq op | rfl

theorem extended_eq (op : Byte) :
    extended op = (Encoding.extended op).map Instruction.text := by
  unfold extended Encoding.extended
  generalize first op = x
  match x with
  | 0 => exact done_eq (data_eq op)
  | 1 => exact extendedRow1_eq op (second op) (third op)
  | 2 => exact done_eq (extendedRow2_eq op (second op) (third op))
  | 3 => exact done_eq (data_eq op)

/-! ### The whole -/

theorem afterPrefix_eq (x : Index) :
    afterPrefix x = (Encoding.indexed x).map Instruction.text := by
  refine congrArg Reader.peek (funext fun byte? => ?_)
  split
  · exact done_eq rfl
  · exact done_eq rfl
  · exact done_eq rfl
  · exact done_eq rfl
  · next b hdd hed hfd =>
      have hover : overridesPrefix b = false := by
        simpa [overridesPrefix] using And.intro (And.intro hdd hed) hfd
      simp only [hover]
      refine congrArg Reader.opcode (funext fun op => ?_)
      beta_reduce
      split
      · exact congrArg Reader.operand (funext fun d => congrArg Reader.operand (funext fun op =>
          done_eq (indexedBits_eq x d op)))
      · exact mainTable_eq (.index x) op

/-- The disassembler takes the bytes that an instruction takes, and ends with its
line. -/
theorem reader_eq_map_text : reader = Instruction.reader.map Instruction.text := by
  refine congrArg Reader.opcode (funext fun op => ?_)
  split
  · exact congrArg Reader.opcode (funext fun op => done_eq (bits_eq op))
  · exact afterPrefix_eq .ix
  · exact congrArg Reader.opcode (funext extended_eq)
  · exact afterPrefix_eq .iy
  · next hcb hdd hed hfd =>
      beta_reduce
      rw [if_neg (show ¬op = 0xCB from hcb), if_neg (show ¬op = 0xED from hed),
        if_neg (show ¬op = 0xDD from hdd), if_neg (show ¬op = 0xFD from hfd)]
      exact mainTable_eq .hl op

end Disassembly

namespace Instruction

/-- The line for bytes is the line of the instruction that they encode. -/
theorem disassemble_eq (bytes : List Byte) : disassemble bytes = (ofBytes bytes).text := by
  unfold disassemble ofBytes
  rw [Disassembly.reader_eq_map_text, Reader.parse_map]

theorem disassembledLength_eq (bytes : List Byte) : disassembledLength bytes = length bytes := by
  unfold disassembledLength length
  rw [Disassembly.reader_eq_map_text, Reader.parse_map]

end Instruction
end Z80Machine
