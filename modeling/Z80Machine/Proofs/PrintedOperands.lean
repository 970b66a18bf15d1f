import Z80Machine.Proofs.Glossary
import Z80Machine.Proofs.SameLine
import Z80Machine.Proofs.WordNames

/-!
# The operands on a line

A line of the disassembler names registers, numbers and conditions.  For the lines in which they
are the only operands (`OperandLine`) it is said here what the line means: what the registers of
the given names hold afterwards, which word is pushed, and where the program goes on.  The words
and their meaning come from the glossary: where a register lies, what a condition asks of the
flags, and what becomes of the operands of an operation or a shift.  `operands_of_line` says that
the step does what its line means and changes no other register but R.
-/

namespace Z80Machine

/-! ### Lines and their meaning -/

/-- A line whose operands are registers, numbers and conditions. -/
inductive OperandLine where
  /-- `LD x,y` for two byte registers. -/
  | move (x y : Reg8)
  /-- `LD x,n` -/
  | load (x : Reg8) (n : Byte)
  /-- `LD xx,nn` -/
  | loadWord (xx : Reg16) (nn : Word)
  | inc (x : Reg8)
  | dec (x : Reg8)
  | incWord (x : Reg16)
  | decWord (x : Reg16)
  | push (x : Reg16)
  | pop (x : Reg16)
  /-- `ADD x,y` for two word registers. -/
  | addWord (x y : Reg16)
  /-- `ADC HL,y` -/
  | adcWord (y : Reg16)
  /-- `SBC HL,y` -/
  | sbcWord (y : Reg16)
  /-- An operation on the accumulator and a byte register. -/
  | operate (op : Operation) (y : Reg8)
  | shift (op : Shift) (x : Reg8)
  | res (n : Fin 8) (x : Reg8)
  | set (n : Fin 8) (x : Reg8)
  | jp (cond : Condition) (nn : Word)
  /-- A relative jump.  The distance `d` is counted from the address behind it, and the distance
  that is written from its own. -/
  | jr (cond : Condition) (d : Byte)
  | call (cond : Condition) (nn : Word)
  | ret (cond : Condition)
  deriving DecidableEq

namespace OperandLine

/-- How a line is written. -/
def statement : OperandLine → Statement
  | .move x y => { name := "LD", operands := [x.gloss.word, y.gloss.word] }
  | .load x n => { name := "LD", operands := [x.gloss.word, Text.byte n] }
  | .loadWord xx nn => { name := "LD", operands := [xx.gloss.word, Text.word nn] }
  | .inc x => { name := "INC", operands := [x.gloss.word] }
  | .dec x => { name := "DEC", operands := [x.gloss.word] }
  | .incWord x => { name := "INC", operands := [x.gloss.word] }
  | .decWord x => { name := "DEC", operands := [x.gloss.word] }
  | .push x => { name := "PUSH", operands := [x.gloss.word] }
  | .pop x => { name := "POP", operands := [x.gloss.word] }
  | .addWord x y => { name := "ADD", operands := [x.gloss.word, y.gloss.word] }
  | .adcWord y => { name := "ADC", operands := ["HL", y.gloss.word] }
  | .sbcWord y => { name := "SBC", operands := ["HL", y.gloss.word] }
  | .operate op y => { name := op.gloss.word, operands := op.gloss.operands y.gloss.word }
  | .shift op x => { name := op.gloss.word, operands := [x.gloss.word] }
  | .res n x => { name := "RES", operands := [toString n.val, x.gloss.word] }
  | .set n x => { name := "SET", operands := [toString n.val, x.gloss.word] }
  | .jp cond nn => { name := "JP", operands := [cond.gloss.word, Text.word nn] }
  | .jr cond d => { name := "JR", operands := [cond.gloss.word, Text.relative (d.toInt + 2)] }
  | .call cond nn => { name := "CALL", operands := [cond.gloss.word, Text.word nn] }
  | .ret cond => { name := "RET", operands := [cond.gloss.word] }

/-- The line itself. -/
def text (l : OperandLine) : String := l.statement.text

example : (operate .adc .ixh).text = "ADC A,IXH" := by decide

/-- The registers that a line asks for, apart from the program counter, where `top` is the word on
top of the stack. -/
def registers (l : OperandLine) (s : Registers) (top : Word) : Registers :=
  match l with
  | .move x y => x.gloss.put s (y.gloss.get s)
  | .load x n => x.gloss.put s n
  | .loadWord xx nn => xx.gloss.put s nn
  | .inc x =>
      let r := Arithmetic.incByte (x.gloss.get s) s.f
      { x.gloss.put s r.value with f := r.flags }
  | .dec x =>
      let r := Arithmetic.decByte (x.gloss.get s) s.f
      { x.gloss.put s r.value with f := r.flags }
  | .incWord x => x.gloss.put s (x.gloss.get s + 1)
  | .decWord x => x.gloss.put s (x.gloss.get s - 1)
  | .push _ => { s with sp := s.sp - 2 }
  | .pop x => x.gloss.put { s with sp := s.sp + 2 } top
  | .addWord x y =>
      let r := Arithmetic.addWord (x.gloss.get s) (y.gloss.get s) s.f
      { x.gloss.put s r.value with f := r.flags }
  | .adcWord y =>
      let r := Arithmetic.addCarryWord (Reg16.hl.gloss.get s) (y.gloss.get s) s.f.carry
      { Reg16.hl.gloss.put s r.value with f := r.flags }
  | .sbcWord y =>
      let r := Arithmetic.subBorrowWord (Reg16.hl.gloss.get s) (y.gloss.get s) s.f.carry
      { Reg16.hl.gloss.put s r.value with f := r.flags }
  | .operate op y =>
      let r := op.gloss.result s.a (y.gloss.get s) s.f.carry
      { s with a := r.value, f := r.flags }
  | .shift op x =>
      let r := op.gloss.result (x.gloss.get s) s.f.carry
      { x.gloss.put s r.value with f := r.flags }
  | .res n x => x.gloss.put s (Arithmetic.resetBit n (x.gloss.get s))
  | .set n x => x.gloss.put s (Arithmetic.setBit n (x.gloss.get s))
  | .call cond _ => if cond.MetBy s.f then { s with sp := s.sp - 2 } else s
  | .ret cond => if cond.MetBy s.f then { s with sp := s.sp + 2 } else s
  | .jp .. | .jr .. => s

/-- Where a line goes on, where `behind` is the address behind the instruction. -/
def next (l : OperandLine) (s : Registers) (top behind : Word) : Word :=
  match l with
  | .jp cond nn | .call cond nn => if cond.MetBy s.f then nn else behind
  | .jr cond d => if cond.MetBy s.f then behind + d.signExtend 16 else behind
  | .ret cond => if cond.MetBy s.f then top else behind
  | _ => behind

/-- The word that a line pushes. -/
def pushed? (l : OperandLine) (s : Registers) (behind : Word) : Option Word :=
  match l with
  | .push x => some (x.gloss.get s)
  | .call cond _ => if cond.MetBy s.f then some behind else none
  | _ => none

/-- Memory afterwards: the word that is pushed lies just below the stack pointer. -/
def memory (l : OperandLine) (s : Registers) (behind : Word) (ram : Store) : Store :=
  match l.pushed? s behind with
  | some w => (ram.set (s.sp - 1) w.high).set (s.sp - 2) w.low
  | none => ram

/-- If a line is a load between byte registers, both are registers that an encoding can name
anywhere.  `LD A,I` and its like are lines of other instructions, some of which change flags. -/
def MovesMain : OperandLine → Prop
  | .move x y => x.isMain = true ∧ y.isMain = true
  | _ => True

/-! ### From the line to the instruction -/

/-- The instruction that is written so. -/
def instruction : OperandLine → Instruction
  | .move x y => .ld (.register x) (.place (.register y))
  | .load x n => .ld (.register x) (.immediate n)
  | .loadWord xx nn => .ldWord xx (.immediate nn)
  | .inc x => .inc (.register x)
  | .dec x => .dec (.register x)
  | .incWord x => .incWord x
  | .decWord x => .decWord x
  | .push x => .push x
  | .pop x => .pop x
  | .addWord x y => .addWord x y
  | .adcWord y => .adcWord y
  | .sbcWord y => .sbcWord y
  | .operate op y => .operate op (.place (.register y))
  | .shift op x => .shift op (.register x) none
  | .res n x => .res n (.register x) none
  | .set n x => .set n (.register x) none
  | .jp cond nn => .jp (some cond) nn
  | .jr cond d => .jr (some cond) d
  | .call cond nn => .call (some cond) nn
  | .ret cond => .ret (some cond)

theorem statement_instruction (l : OperandLine) : l.instruction.statement = l.statement := by
  cases l <;> simp only [statement, Reg8.word_gloss, Reg16.word_gloss, Condition.word_gloss,
    Operation.word_gloss, Operation.operands_gloss, Shift.word_gloss] <;> rfl

theorem plain_statement (l : OperandLine) : l.statement.Plain := by
  rw [← l.statement_instruction]
  exact l.instruction.plain_statement

end OperandLine

/-! ### Names that encodings use -/

namespace Registers

/-- The registers after an instruction has been read: the program counter stands behind it, and R
has counted its opcodes. -/
def afterFetch (s : Registers) (pc : Word) (r : Byte) : Registers := { s with pc, r }

variable (s : Registers) (pc : Word) (r : Byte)

theorem read8_afterFetch {name : Reg8} (h : name.isMain = true) :
    (s.afterFetch pc r).read8 name = s.read8 name := by
  cases name with
  | r => contradiction
  | _ => rfl

theorem write8_afterFetch {name : Reg8} (h : name.isMain = true) (value : Byte) :
    (s.afterFetch pc r).write8 name value = (s.write8 name value).afterFetch pc r := by
  cases name with
  | r => contradiction
  | _ => rfl

theorem readPair_afterFetch {name : Reg16} (h : name.isMain = true) :
    (s.afterFetch pc r).readPair name = s.readPair name := by
  cases name with
  | pc => contradiction
  | _ => rfl

theorem writePair_afterFetch {name : Reg16} (h : name.isMain = true) (value : Word) :
    (s.afterFetch pc r).writePair name value = (s.writePair name value).afterFetch pc r := by
  cases name with
  | pc => contradiction
  | _ => rfl

end Registers

theorem Place.ofText?_eq_none {name : Reg8} (h : ¬name.isMain = true) :
    Place.ofText? name.text = none := by
  cases name with
  | f | i | r => rfl
  | _ => exact absurd rfl h

theorem Source.ofText?_eq_none {name : Reg8} (h : ¬name.isMain = true) :
    Source.ofText? name.text = none := by
  cases name with
  | f | i | r => rfl
  | _ => exact absurd rfl h

/-- No byte register has the name of a word register. -/
theorem Reg16.ofText?_byte (name : Reg8) : ofText? name.text = none := by
  cases name <;> rfl

namespace OperandLine

open Statement

/-- Nothing but the accumulator is loaded into a register that no encoding can name. -/
theorem load?_eq_none {name : Reg8} (h : ¬name.isMain = true) (n : Byte) :
    load? name.text (Text.byte n) = none := by
  have hbyte : Text.byte n ≠ "A" := by
    intro hA
    have hchars := congrArg String.toList hA
    rw [Text.toList_byte] at hchars
    simp at hchars
  have hplace := Place.ofText?_eq_none h
  have hword := Reg16.ofText?_byte name
  cases name with
  | f | i | r =>
      simp only [Reg8.text] at hplace hword
      simp [load?, Reg8.text, Text.indirectWord?, Text.inside?, hplace, hword, hbyte]
  | _ => exact absurd rfl h

attribute [local simp] instruction Instruction.byteNames Instruction.statement
  Instruction.copyOperand Place.name? Place.text Source.name? Source.text

/-- A line that can be read back names only byte registers that an encoding can name. -/
theorem isMain_of_instruction? {l : OperandLine} (hmoves : l.MovesMain)
    (h : l.statement.instruction? ≠ none) :
    ∀ name ∈ l.instruction.byteNames, name.isMain = true := by
  intro name hname
  by_contra hmain
  have hword := Reg16.ofText?_byte name
  have hplace := Place.ofText?_eq_none hmain
  have hsource := Source.ofText?_eq_none hmain
  rw [← l.statement_instruction] at h
  apply h
  cases l with
  | move x y =>
      have hxy : name = x ∨ name = y := by simpa using hname
      rcases hxy with rfl | rfl
      · exact absurd hmoves.1 hmain
      · exact absurd hmoves.2 hmain
  | load x n =>
      obtain rfl : name = x := by simpa using hname
      exact load?_eq_none hmain n
  | inc x | dec x =>
      obtain rfl : name = x := by simpa using hname
      simp [Statement.instruction?, one?, hplace, hword]
  | operate op y =>
      obtain rfl : name = y := by simpa using hname
      cases op <;>
        simp [Statement.instruction?, one?, two?, Operation.text,
          Operation.namesAccumulator, hsource, hword]
  | shift op x =>
      obtain rfl : name = x := by simpa using hname
      cases op <;> simp [Statement.instruction?, one?, Shift.text, hplace]
  | res n x | set n x =>
      obtain rfl : name = x := by simpa using hname
      simp [Statement.instruction?, two?, hplace]
  | _ => simp at hname

/-! ### Reading and executing -/

section

variable {l : OperandLine} (s : Registers) (top pc : Word) (r : Byte)

/-- What a line asks for depends neither on the program counter nor on R, and changes neither. -/
theorem registers_afterFetch (hbytes : ∀ name ∈ l.instruction.byteNames, name.isMain = true)
    (hwords : ∀ name ∈ l.instruction.wordNames, name.isMain = true) :
    l.registers (s.afterFetch pc r) top = (l.registers s top).afterFetch pc r := by
  cases l with
  | move x y =>
      have hx := hbytes x (.head _)
      have hy := hbytes y (.tail _ (.head _))
      simp only [registers, Reg8.get_gloss, Reg8.put_gloss, s.read8_afterFetch pc r hy,
        s.write8_afterFetch pc r hx]
  | load x n =>
      simp only [registers, Reg8.put_gloss, s.write8_afterFetch pc r (hbytes x (.head _))]
  | loadWord xx nn =>
      simp only [registers, Reg16.put_gloss, s.writePair_afterFetch pc r (hwords xx (.head _))]
  | inc x | dec x | shift _ x =>
      have hx := hbytes x (.head _)
      simp only [registers, Reg8.get_gloss, Reg8.put_gloss, s.read8_afterFetch pc r hx,
        s.write8_afterFetch pc r hx]
      rfl
  | res _ x | set _ x =>
      have hx := hbytes x (.head _)
      simp only [registers, Reg8.get_gloss, Reg8.put_gloss, s.read8_afterFetch pc r hx,
        s.write8_afterFetch pc r hx]
  | incWord x | decWord x =>
      have hx := hwords x (.head _)
      simp only [registers, Reg16.get_gloss, Reg16.put_gloss, s.readPair_afterFetch pc r hx,
        s.writePair_afterFetch pc r hx]
  | pop x =>
      have hx := hwords x (.head _)
      simp only [registers, Reg16.put_gloss]
      exact Registers.writePair_afterFetch { s with sp := s.sp + 2 } pc r hx top
  | addWord x y =>
      have hx := hwords x (.head _)
      have hy := hwords y (.tail _ (.head _))
      simp only [registers, Reg16.get_gloss, Reg16.put_gloss, s.readPair_afterFetch pc r hx,
        s.readPair_afterFetch pc r hy, s.writePair_afterFetch pc r hx]
      rfl
  | adcWord y | sbcWord y =>
      simp only [registers, y.get_gloss, s.readPair_afterFetch pc r (hwords y (.head _))]
      rfl
  | operate op y =>
      simp only [registers, Reg8.get_gloss, s.read8_afterFetch pc r (hbytes y (.head _))]
      rfl
  | call cond =>
      exact (apply_ite (fun s : Registers => s.afterFetch pc r) (cond.MetBy s.f)
        { s with sp := s.sp - 2 } s).symm
  | ret cond =>
      exact (apply_ite (fun s : Registers => s.afterFetch pc r) (cond.MetBy s.f)
        { s with sp := s.sp + 2 } s).symm
  | push | jp | jr => rfl

theorem next_afterFetch (behind : Word) :
    l.next (s.afterFetch pc r) top behind = l.next s top behind := by
  cases l <;> rfl

theorem memory_afterFetch (behind : Word) (ram : Store)
    (hwords : ∀ name ∈ l.instruction.wordNames, name.isMain = true) :
    l.memory (s.afterFetch pc r) behind ram = l.memory s behind ram := by
  cases l with
  | push x =>
      simp only [memory, pushed?, Reg16.get_gloss, s.readPair_afterFetch pc r (hwords x (.head _))]
      rfl
  | _ => rfl

end

end OperandLine

namespace Machine

open OperandLine

/-- The word on top of the stack. -/
def top (m : Machine) : Word :=
  .ofBytes (m.bus.ram.get (m.registers.sp + 1)) (m.bus.ram.get m.registers.sp)

/-- An instruction with a condition asks of the flags what its line does. -/
theorem ite_meets {α : Type} (m : Machine) (cond : Condition) (a b : α) :
    (if m.meets (some cond) then a else b) = if cond.MetBy m.registers.f then a else b :=
  if_congr (cond.metBy_iff m.registers.f).symm rfl rfl

section

variable (m : Machine) (l : OperandLine)

/-- The instruction does to the registers what its line asks for. -/
theorem registers_execute_instruction (pc : Word) :
    { (m.execute l.instruction).registers with pc } =
      { l.registers m.registers m.top with pc } := by
  have hdown : m.registers.sp - 1 - 1 = m.registers.sp - 2 := BitVec.sub_sub ..
  have hup : m.registers.sp + 1 + 1 = m.registers.sp + 2 := BitVec.add_assoc ..
  cases l with
  | push x =>
      show { m.registers with sp := m.registers.sp - 1 - 1, pc } = _
      rw [hdown]
      rfl
  | pop x =>
      show { { m.registers with sp := m.registers.sp + 1 + 1 }.writePair x m.top with pc } = _
      rw [hup, registers, Reg16.put_gloss]
  | jp cond nn =>
      show { (m.jumpIf (some cond) nn).registers with pc } = _
      unfold jumpIf
      split <;> rfl
  | jr cond d =>
      show { (m.jumpRelativeIf (some cond) d).registers with pc } = _
      unfold jumpRelativeIf
      split <;> rfl
  | call cond nn =>
      show { (m.callIf (some cond) nn).registers with pc } = _
      rw [callIf, ite_meets, registers, ← hdown]
      split <;> rfl
  | ret cond =>
      show { (m.retIf (some cond)).registers with pc } = _
      rw [retIf, ite_meets, registers, ← hup]
      split <;> rfl
  | _ =>
      simp only [registers, Reg8.get_gloss, Reg8.put_gloss, Reg16.get_gloss, Reg16.put_gloss,
        Operation.result_gloss, Shift.result_gloss]
      rfl

theorem pc_execute_instruction (hwords : ∀ name ∈ l.instruction.wordNames, name.isMain = true) :
    (m.execute l.instruction).registers.pc = l.next m.registers m.top m.registers.pc := by
  cases l with
  | jp cond nn =>
      show (m.jumpIf (some cond) nn).registers.pc = _
      rw [jumpIf, ite_meets, next]
      split <;> rfl
  | jr cond d =>
      show (m.jumpRelativeIf (some cond) d).registers.pc = _
      rw [jumpRelativeIf, ite_meets, next]
      split <;> rfl
  | call cond nn =>
      show (m.callIf (some cond) nn).registers.pc = _
      rw [callIf, ite_meets, next]
      split <;> rfl
  | ret cond =>
      show (m.retIf (some cond)).registers.pc = _
      rw [retIf, ite_meets, next]
      split <;> rfl
  | _ => exact pc_execute m rfl fun name h => hwords name (Instruction.mem_wordNames_of_target h)

theorem ram_execute_instruction :
    (m.execute l.instruction).bus.ram = l.memory m.registers m.registers.pc m.bus.ram := by
  have hdown : m.registers.sp - 1 - 1 = m.registers.sp - 2 := BitVec.sub_sub ..
  cases l with
  | push x =>
      refine (ram_push m _).trans ?_
      rw [hdown, memory, pushed?, Reg16.get_gloss]
  | jp cond nn =>
      show (m.jumpIf (some cond) nn).bus.ram = m.bus.ram
      unfold jumpIf
      split <;> rfl
  | jr cond d =>
      show (m.jumpRelativeIf (some cond) d).bus.ram = m.bus.ram
      unfold jumpRelativeIf
      split <;> rfl
  | call cond nn =>
      show (m.callIf (some cond) nn).bus.ram = _
      rw [callIf, ite_meets, memory, pushed?, ← hdown]
      split <;> rfl
  | ret cond =>
      show (m.retIf (some cond)).bus.ram = m.bus.ram
      unfold retIf
      split <;> rfl
  | _ => rfl

end

variable {m : Machine} {l : OperandLine}

/-- The line tells the instruction. -/
theorem instruction_of_line (hmoves : l.MovesMain) (hline : m.line = l.text) :
    m.instruction = l.instruction := by
  have hread := instruction?_of_line l.plain_statement hline
  have hnames := isMain_of_instruction? hmoves (hread.trans_ne (Option.some_ne_none _))
  rw [← l.statement_instruction, Instruction.instruction?_statement hnames] at hread
  exact (Option.some.inj hread).symm

theorem registers_ready_eq_afterFetch :
    m.ready.registers = m.registers.afterFetch m.behind m.ready.registers.r := by
  rw [← pc_ready, registers_ready]
  rfl

theorem top_ready : m.ready.top = m.top := by
  rw [top, registers_ready, ram_ready]
  rfl

/-! ### The step -/

section

variable (hinstruction : m.instruction = l.instruction)
include hinstruction

theorem isMain_of_mem_wordNames_instruction :
    ∀ name ∈ l.instruction.wordNames, name.isMain = true :=
  hinstruction ▸ fun _ => isMain_of_mem_wordNames

theorem pc_executed_of_instruction :
    m.executed.registers.pc = l.next m.registers m.top m.behind := by
  have hwords := isMain_of_mem_wordNames_instruction hinstruction
  calc m.executed.registers.pc
    _ = (m.ready.execute l.instruction).registers.pc := by rw [← hinstruction]; rfl
    _ = l.next m.ready.registers m.ready.top m.ready.registers.pc :=
        pc_execute_instruction m.ready l hwords
    _ = l.next m.registers m.top m.behind := by
        rw [pc_ready, top_ready, registers_ready_eq_afterFetch, next_afterFetch]

theorem registers_executed_of_instruction :
    m.executed.registers =
      { l.registers m.registers m.top with
        pc := l.next m.registers m.top m.behind
        r := m.ready.registers.r } := by
  have hbytes : ∀ name ∈ l.instruction.byteNames, name.isMain = true :=
    hinstruction ▸ fun _ => isMain_of_mem_byteNames
  have hwords := isMain_of_mem_wordNames_instruction hinstruction
  rw [← pc_executed_of_instruction hinstruction]
  calc m.executed.registers
    _ = { (m.ready.execute l.instruction).registers with pc := m.executed.registers.pc } := by
        rw [← hinstruction]
        rfl
    _ = { l.registers m.ready.registers m.ready.top with pc := m.executed.registers.pc } :=
        registers_execute_instruction m.ready l _
    _ = _ := by
        rw [top_ready, registers_ready_eq_afterFetch, registers_afterFetch _ _ _ _ hbytes hwords]
        rfl

theorem ram_executed_of_instruction :
    m.executed.bus.ram = l.memory m.registers m.behind m.bus.ram := by
  have hwords := isMain_of_mem_wordNames_instruction hinstruction
  calc m.executed.bus.ram
    _ = (m.ready.execute l.instruction).bus.ram := by rw [← hinstruction]; rfl
    _ = l.memory m.ready.registers m.ready.registers.pc m.ready.bus.ram :=
        ram_execute_instruction m.ready l
    _ = l.memory m.registers m.behind m.bus.ram := by
        rw [pc_ready, ram_ready, registers_ready_eq_afterFetch, memory_afterFetch _ _ _ _ _ hwords]

theorem not_atHole_of_instruction : ¬m.AtHole := by
  rw [atHole_iff_text, Instruction.text_eq_data_iff, hinstruction]
  rintro ⟨opcode, hundefined⟩
  cases l <;> contradiction

end

/-- With no request pending a machine that is not halted does what its line asks for: it reads and
writes the registers of the given names and pushes and pops the words that the line tells, and a
conditional jump, call or return goes elsewhere just if the flags meet the condition.  Beyond that
the step changes neither registers nor memory, but for R.  What the words of the line mean is said
in the glossary. -/
theorem operands_of_line (m : Machine) (l : OperandLine) (hrunning : m.registers.halted = false)
    (hint : m.interruptPending = false) (hnmi : m.nmiPending = false) (hmoves : l.MovesMain)
    (hline : m.line = l.text) :
    m.Succeeds ∧
      m.step.2.registers =
        { l.registers m.registers m.top with
          pc := l.next m.registers m.top m.behind
          r := m.step.2.registers.r } ∧
      m.step.2.bus.ram = l.memory m.registers m.behind m.bus.ram := by
  have hinstruction := instruction_of_line hmoves hline
  have hhole := not_atHole_of_instruction hinstruction
  obtain ⟨hok, hstep⟩ := succeeds_of_due_none (due_eq_none hint hnmi) hrunning hhole
  rw [hstep]
  refine ⟨hok, ?_, ram_executed_of_instruction hinstruction⟩
  rw [registers_executed_of_instruction hinstruction]

/-- A machine that calls on even parity, with the operand of the call at the start of memory. -/
def callExample : Machine where
  registers := { pc := 0xFFFF, sp := 0x8000, f := { parityOverflow := true } }
  bus.ram := Store.load (.fill 0 16) 0xFFFF [0xEC, 0x34, 0x12]

/-- The call is taken, and the way back is just behind the operand. -/
theorem call_on_even_parity :
    callExample.line = "CALL PE,$1234" ∧
      callExample.step.2.registers =
        { callExample.registers with
          pc := 0x1234
          sp := 0x7FFE
          r := callExample.step.2.registers.r } ∧
      callExample.step.2.bus.ram = (callExample.bus.ram.set 0x7FFF 0x00).set 0x7FFE 0x02 := by
  have hline : callExample.line = (OperandLine.call .pe 0x1234).text := by decide
  obtain ⟨-, hregisters, hram⟩ :=
    operands_of_line callExample (.call .pe 0x1234) rfl rfl rfl trivial hline
  exact ⟨hline, hregisters, hram⟩

end Machine
end Z80Machine
