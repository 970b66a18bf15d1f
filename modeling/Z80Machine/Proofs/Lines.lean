import Mathlib.Data.List.TakeWhile
import Z80Machine.Proofs.Disassembly
import Z80Machine.Proofs.Operands

/-!
# Lines can be read back

An assembler for single lines.  It takes a line apart into a name and operands
(`Statement.ofLine`) and finds the instruction that is written so
(`Statement.instruction?`).  It is made for the lines that the disassembler writes and does
not look for mistakes in others.  It reads back every instruction that names only registers
an encoding can name (`Instruction.ofLine?_text`), so such an instruction is determined by
its line (`Instruction.text_inj`).
-/

namespace Z80Machine

namespace Statement

/-! ### Taking a line apart -/

/-- No space in the name and no comma in an operand. -/
structure Plain (s : Statement) : Prop where
  name : ' ' ∉ s.name.toList
  operands : ∀ x ∈ s.operands, ',' ∉ x.toList

/-- Takes a line apart: the name goes up to the first space, and commas part the operands. -/
def ofLine (line : String) : Statement where
  name := .ofList (line.toList.takeWhile (· ≠ ' '))
  operands :=
    match line.toList.dropWhile (· ≠ ' ') with
    | [] => []
    | _ :: rest => (rest.splitOn ',').map .ofList

/-- A line gives its name and its operands back. -/
theorem ofLine_text {s : Statement} (h : s.Plain) : ofLine s.text = s := by
  obtain ⟨name, operands⟩ := s
  obtain ⟨hname, hoperands⟩ := h
  have hkept : ∀ c ∈ name.toList, decide (c ≠ ' ') = true := by
    intro c hc
    apply decide_eq_true
    rintro rfl
    exact hname hc
  cases operands with
  | nil =>
      simp only [ofLine, text_nil]
      rw [List.takeWhile_eq_self_iff.mpr hkept, List.dropWhile_eq_nil_iff.mpr hkept]
      simp
  | cons x rest =>
      have hline : (text ⟨name, x :: rest⟩).toList =
          name.toList ++ ' ' :: [','].intercalate ((x :: rest).map String.toList) := by
        show (name ++ " " ++ ",".intercalate (x :: rest)).toList = _
        rw [String.toList_append, String.toList_append, String.toList_intercalate]
        simp
      have hsplit : ([','].intercalate ((x :: rest).map String.toList)).splitOn ',' =
          (x :: rest).map String.toList :=
        List.splitOn_intercalate ',' (by simpa using hoperands) (by simp)
      simp only [ofLine, hline]
      rw [List.takeWhile_append_of_pos hkept, List.dropWhile_append_of_pos hkept]
      simp only [ne_eq, not_true, decide_false, List.takeWhile_cons, List.dropWhile_cons,
        Bool.false_eq_true, if_false, List.append_nil, hsplit]
      simp

end Statement

namespace Instruction

theorem space_notMem_name (i : Instruction) : ' ' ∉ i.statement.name.toList := by
  cases i with
  | operate op => cases op <;> simp [statement, Operation.text]
  | adjust op => cases op <;> simp [statement, Adjustment.text]
  | shift op => cases op <;> simp [statement, Shift.text]
  | inC target => cases target <;> simp [statement]
  | outC source => cases source <;> simp [statement]
  | block op dir repeats =>
      cases op <;> cases dir <;> cases repeats <;> simp [statement, BlockOperation.text]
  | _ => simp [statement]

theorem comma_notMem_operands (i : Instruction) : ∀ x ∈ i.statement.operands, ',' ∉ x.toList := by
  cases i with
  | operate op => cases op <;> simp [statement, Operation.namesAccumulator]
  | storeControl target => cases target <;> simp [statement, ControlRegister.text]
  | loadControl source => cases source <;> simp [statement, ControlRegister.text]
  | jp cond | jr cond | call cond => cases cond <;> simp [statement, conditionOperand]
  | inC target => cases target <;> simp [statement]
  | outC source => cases source <;> simp [statement]
  | _ => simp [statement, conditionOperand, copyOperand]

/-- Every line can be taken apart. -/
theorem plain_statement (i : Instruction) : i.statement.Plain :=
  ⟨i.space_notMem_name, i.comma_notMem_operands⟩

end Instruction

/-! ### Finding the instruction -/

namespace Statement

/-- The instructions that are written without operands. -/
def bare : List Instruction :=
  [.nop, .idlePrefix, .exx, .rld, .rrd, .ret none, .reti, .retn, .halt, .di, .ei] ++
    [Adjustment.rlca, .rrca, .rla, .rra, .daa, .cpl, .scf, .ccf, .neg].map .adjust ++
    do
      let op ← [BlockOperation.load, .compare, .input, .output]
      let dir ← [Direction.up, .down]
      let repeats ← [false, true]
      [.block op dir repeats]

/-- Reads the distance of a relative jump. -/
def jump? (x : String) : Option Byte := (Text.relative? x).map fun e => BitVec.ofInt 8 (e - 2)

/-- The instruction with a given name and one operand. -/
def one? (name x : String) : Option Instruction :=
  match name with
  | "PUSH" => (Reg16.ofText? x).map .push
  | "POP" => (Reg16.ofText? x).map .pop
  | "INC" => (Place.ofText? x).map .inc <|> (Reg16.ofText? x).map .incWord
  | "DEC" => (Place.ofText? x).map .dec <|> (Reg16.ofText? x).map .decWord
  | "JP" =>
      (Text.word? x).map (.jp none) <|> (Text.inside? x >>= Reg16.ofText?).map .jpRegister
  | "JR" => (jump? x).map (.jr none)
  | "DJNZ" => (jump? x).map .djnz
  | "CALL" => (Text.word? x).map (.call none)
  | "RET" => (Condition.ofText? x).map (.ret ∘ some)
  | "RST" => (Text.byte? x).map .rst
  | "IN" => if x = "(C)" then some (.inC none) else none
  | "IM" => (Text.digit? 3 x).map .im
  | "SUB" => (Source.ofText? x).map (.operate .sub)
  | "AND" => (Source.ofText? x).map (.operate .and)
  | "XOR" => (Source.ofText? x).map (.operate .xor)
  | "OR" => (Source.ofText? x).map (.operate .or)
  | "CP" => (Source.ofText? x).map (.operate .cp)
  | _ => do some (.shift (← Shift.ofText? name) (← Place.ofText? x) none)

/-- The load with given operands.  It moves a byte if its operands read as a place and a source
of a byte, and a word or a control register only if they do not. -/
def load? (x y : String) : Option Instruction :=
  (do some (.ld (← Place.ofText? x) (← Source.ofText? y))) <|>
    (do some (.ldWord (← Reg16.ofText? x) (← WordSource.ofText? y))) <|>
    (do some (.storeWord (← Text.indirectWord? x) (← Reg16.ofText? y))) <|>
    match x, y with
    | "I", "A" => some (.storeControl .i)
    | "R", "A" => some (.storeControl .r)
    | "A", "I" => some (.loadControl .i)
    | "A", "R" => some (.loadControl .r)
    | _, _ => none

/-- The instruction with a given name and two operands. -/
def two? (name x y : String) : Option Instruction :=
  match name with
  | "LD" => load? x y
  | "EX" =>
      match x with
      | "AF" => some .exAf
      | "DE" => some .exDeHl
      | _ => (Reg16.ofText? y).map .exStack
  | "BIT" => do some (.bit (← Text.digit? 8 x) (← Place.ofText? y))
  | "RES" => do some (.res (← Text.digit? 8 x) (← Place.ofText? y) none)
  | "SET" => do some (.set (← Text.digit? 8 x) (← Place.ofText? y) none)
  | "JP" => do some (.jp (some (← Condition.ofText? x)) (← Text.word? y))
  | "JR" => do some (.jr (some (← Condition.ofText? x)) (← jump? y))
  | "CALL" => do some (.call (some (← Condition.ofText? x)) (← Text.word? y))
  | "IN" =>
      (Text.inside? y >>= Text.byte?).map .inA <|> (Reg8.ofText? x).map (.inC ∘ some)
  | "OUT" =>
      (Text.inside? x >>= Text.byte?).map .outA <|> (Reg8.ofText? y).map (.outC ∘ some) <|>
        some (.outC none)
  | "DB" => (Text.byte? y).map .undefined
  | "ADD" =>
      (Source.ofText? y).map (.operate .add) <|>
        (do some (.addWord (← Reg16.ofText? x) (← Reg16.ofText? y)))
  | "ADC" => (Source.ofText? y).map (.operate .adc) <|> (Reg16.ofText? y).map .adcWord
  | "SBC" => (Source.ofText? y).map (.operate .sbc) <|> (Reg16.ofText? y).map .sbcWord
  | _ => do some (.shift (← Shift.ofText? name) (← Place.ofText? x) (some (← Reg8.ofText? y)))

/-- The instruction with a given name and three operands. -/
def three? (name x y z : String) : Option Instruction := do
  let n ← Text.digit? 8 x
  let target ← Place.ofText? y
  let copy ← Reg8.ofText? z
  match name with
  | "RES" => some (.res n target copy)
  | "SET" => some (.set n target copy)
  | _ => none

/-- The instruction that is written as a given statement. -/
def instruction? (s : Statement) : Option Instruction :=
  match s.operands with
  | [] => bare.find? (·.statement.name = s.name)
  | [x] => one? s.name x
  | [x, y] => two? s.name x y
  | [x, y, z] => three? s.name x y z
  | _ => none

@[simp] theorem jump?_relative (d : Byte) : jump? (Text.relative (d.toInt + 2)) = some d := by
  simp [jump?]

end Statement

namespace Instruction

open Statement

attribute [local simp] statement Statement.instruction? one? two? three? load? conditionOperand
  copyOperand

/-- The statement of an instruction is read as that instruction. -/
theorem instruction?_statement {i : Instruction}
    (hnames : ∀ name ∈ i.byteNames, name.isMain = true) : i.statement.instruction? = some i := by
  -- what is written by name alone is looked up, and operands are read one by one
  cases i with
  | nop | idlePrefix | exAf | exx | exDeHl | rld | rrd | reti | retn | halt | di | ei => rfl
  | adjust op => cases op <;> rfl
  | block op dir repeats => cases op <;> cases dir <;> cases repeats <;> rfl
  | storeControl target => cases target <;> rfl
  | loadControl source => cases source <;> rfl
  | ld target source =>
      obtain ⟨htarget, hsource⟩ := List.forall_mem_append.mp hnames
      simp [Place.ofText?_text htarget, Source.ofText?_text hsource]
  | operate op source =>
      have hsource := Source.ofText?_text hnames
      cases op <;> simp [Operation.text, Operation.namesAccumulator, hsource]
  | inc target | dec target =>
      have htarget := Place.ofText?_text hnames
      simp [htarget]
  | shift op target copy =>
      obtain ⟨htarget, hcopy⟩ := List.forall_mem_append.mp hnames
      have htarget := Place.ofText?_text htarget
      cases copy with
      | none => cases op <;> simp [Shift.text, Shift.ofText?, htarget]
      | some name =>
          have hname := Reg8.ofText?_text (hcopy name List.mem_cons_self)
          cases op <;> simp [Shift.text, Shift.ofText?, htarget, hname]
  | bit n target =>
      have htarget := Place.ofText?_text hnames
      simp [htarget]
  | res n target copy | set n target copy =>
      obtain ⟨htarget, hcopy⟩ := List.forall_mem_append.mp hnames
      have htarget := Place.ofText?_text htarget
      cases copy with
      | none => simp [htarget]
      | some name =>
          have hname := Reg8.ofText?_text (hcopy name List.mem_cons_self)
          simp [htarget, hname]
  | inC target | outC target =>
      cases target with
      | none => rfl
      | some name =>
          have hname : name.isMain = true := hnames name List.mem_cons_self
          cases name with
          | f | i | r => contradiction
          | _ => rfl
  | ret cond =>
      cases cond with
      | none => rfl
      | some cond => simp
  | jp cond | jr cond | call cond => cases cond <;> simp
  | _ => simp

/-- Reads a line. -/
def ofLine? (line : String) : Option Instruction := (Statement.ofLine line).instruction?

/-- A line is read back as the instruction that it was written for. -/
theorem ofLine?_text {i : Instruction} (hnames : ∀ name ∈ i.byteNames, name.isMain = true) :
    ofLine? i.text = some i := by
  rw [ofLine?, text, Statement.ofLine_text i.plain_statement]
  exact instruction?_statement hnames

/-- Instructions with one line are equal. -/
theorem text_inj {i j : Instruction} (hi : ∀ name ∈ i.byteNames, name.isMain = true)
    (hj : ∀ name ∈ j.byteNames, name.isMain = true) (h : i.text = j.text) : i = j := by
  have hread := ofLine?_text hi
  rw [h, ofLine?_text hj] at hread
  exact (Option.some.inj hread).symm

end Instruction
end Z80Machine
