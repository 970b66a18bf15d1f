import Z80Machine.Proofs.SameLine

/-!
# Where a relative jump goes

The line of a relative jump gives its target as a distance from the address of the instruction.
The distance is counted from the two bytes of the jump itself, so it is right when they are all
there is, and one too low when they stand behind a `DD` or `FD` byte, which belongs to the
instruction and has no other effect.  `relative_jump_from_line` says where each jump goes,
compared with its line.
-/

namespace Z80Machine

/-! ### The jumps and their lines -/

/-- A relative jump without its distance. -/
inductive RelativeJump where
  | djnz
  | jr (cond : Option Condition)
  deriving DecidableEq

namespace RelativeJump

/-- The instruction for a jump by `d` bytes from the address behind it. -/
def instruction (j : RelativeJump) (d : Byte) : Instruction :=
  match j with
  | .djnz => .djnz d
  | .jr cond => .jr cond d

/-- The statement for a jump whose target is written as the distance `e`. -/
def statement (j : RelativeJump) (e : Int) : Statement :=
  match j with
  | .djnz => { name := "DJNZ", operands := [Text.relative e] }
  | .jr cond =>
      { name := "JR", operands := Instruction.conditionOperand cond ++ [Text.relative e] }

/-- The line for a jump whose target is written as the distance `e`. -/
def line (j : RelativeJump) (e : Int) : String := (j.statement e).text

/-- Whether the jump is taken: `DJNZ` unless it counts B down to zero, the others if the flags
meet their condition. -/
def taken (j : RelativeJump) (s : Registers) : Bool :=
  match j with
  | .djnz => s.b - 1 != 0
  | .jr none => true
  | .jr (some cond) => cond.holds s.f

theorem statement_instruction (j : RelativeJump) (d : Byte) :
    (j.instruction d).statement = j.statement (d.toInt + 2) := by
  cases j <;> rfl

example : (jr (some .nz)).line (-14) = "JR NZ,$-14" := by decide

theorem plain_statement (j : RelativeJump) (e : Int) : (j.statement e).Plain := by
  have hcomma := Text.comma_notMem_relative e
  cases j with
  | djnz => exact ⟨by simp [statement], by simp [statement, hcomma]⟩
  | jr cond =>
      cases cond <;>
        exact ⟨by simp [statement], by simp [statement, Instruction.conditionOperand, hcomma]⟩

/-- A statement of a jump is read as that jump, whatever the distance. -/
theorem instruction?_statement (j : RelativeJump) (e : Int) :
    (j.statement e).instruction? = some (j.instruction (BitVec.ofInt 8 (e - 2))) := by
  have hjump : Statement.jump? (Text.relative e) = some (BitVec.ofInt 8 (e - 2)) := by
    rw [Statement.jump?, Text.relative?_relative]
    rfl
  cases j with
  | djnz => simp [statement, instruction, Statement.instruction?, Statement.one?, hjump]
  | jr cond =>
      cases cond <;>
        simp [statement, instruction, Statement.instruction?, Statement.one?, Statement.two?,
          Instruction.conditionOperand, hjump]

theorem statement_inj {j : RelativeJump} {e e' : Int} (h : j.statement e = j.statement e') :
    e = e' := by
  have hoperands : Text.relative e = Text.relative e' := by
    cases j with
    | djnz => simpa [statement] using h
    | jr cond => simpa [statement] using h
  have hread := congrArg Text.relative? hoperands
  rw [Text.relative?_relative, Text.relative?_relative] at hread
  exact Option.some.inj hread

end RelativeJump

/-! ### The bytes of a jump -/

/-- The distance of a relative jump from the address behind it. -/
def Instruction.distance? : Instruction → Option Byte
  | .jr _ d | .djnz d => some d
  | _ => none

theorem RelativeJump.distance?_instruction (j : RelativeJump) (d : Byte) :
    (j.instruction d).distance? = some d := by
  cases j <;> rfl

namespace Reader

variable {α : Type}

/-- Every value at which a reader can end has the property `P` together with the number of bytes
that are taken until then. -/
def EndsAfter (P : α → Nat → Prop) : Reader α → Prop
  | done value => P value 0
  | opcode next => ∀ byte, (next byte).EndsAfter fun value n => P value (n + 1)
  | operand next => ∀ byte, (next byte).EndsAfter fun value n => P value (n + 1)
  | peek next => ∀ byte?, (next byte?).EndsAfter P

theorem EndsAfter.fetch {P : α → Nat → Prop} {r : Reader α} (h : r.EndsAfter P) (m : Machine) :
    P (m.fetch r).value (m.fetch r).bytes.length := by
  induction r generalizing m P with
  | done value => exact h
  | opcode next ih => exact ih _ (h _) m.refresh.fetchByte.2
  | operand next ih => exact ih _ (h _) m.fetchByte.2
  | peek next ih => exact ih _ (h _) (m.read m.registers.pc).2

theorem Ends.endsAfter {Q : α → Prop} {P : α → Nat → Prop} {r : Reader α} (h : r.Ends Q)
    (hQP : ∀ value n, Q value → P value n) : r.EndsAfter P := by
  induction r generalizing P with
  | done value => exact hQP value 0 h
  | opcode next ih => exact fun byte => ih byte (h byte) fun value n => hQP value (n + 1)
  | operand next ih => exact fun byte => ih byte (h byte) fun value n => hQP value (n + 1)
  | peek next ih => exact fun byte? => ih byte? (h byte?) hQP

theorem TakesOperands.endsAfter {Q P : α → Nat → Prop} {r : Reader α} (h : r.TakesOperands Q)
    (hQP : ∀ value n, Q value n → P value n) : r.EndsAfter P := by
  induction r generalizing Q P with
  | done value => exact hQP value 0 h
  | operand next ih => exact fun byte => ih byte (h byte) fun value n => hQP value (n + 1)
  | opcode next | peek next => exact h.elim

end Reader

namespace Encoding

open Instruction Reader

/-- Whether a value that has been read is no relative jump or has taken `k` bytes. -/
def JumpAfter (k : Nat) (i : Instruction) (n : Nat) : Prop := i.distance? ≠ none → n = k

theorem jumpAfter_of_ends {k : Nat} {r : Reader Instruction} (h : r.Ends (·.distance? = none)) :
    r.EndsAfter (JumpAfter k) :=
  h.endsAfter fun _ _ hnone hsome => absurd hnone hsome

/-- The relative jumps of the main table have one operand each. -/
theorem mainTable_jumpAfter (p : Pointer) (op : Byte) :
    (mainTable p op).EndsAfter (JumpAfter 1) := by
  refine (entries_mainTable p op).endsAfter fun i n h => ?_
  cases h with
  | jr _ _ | djnz _ => exact fun _ => rfl
  | _ => exact fun hsome => absurd rfl hsome

theorem bitOperation_distance? (op : Byte) (target : Place) (copy : Option Reg8) :
    (bitOperation op target copy).distance? = none := by
  unfold bitOperation
  split <;> rfl

theorem bits_distance? (op : Byte) : (bits op).distance? = none := by
  unfold bits
  split <;> exact bitOperation_distance? op _ none

theorem extended_distance? (op : Byte) : (extended op).Ends (·.distance? = none) := by
  refine (entries_extended op).ends fun i n h => ?_
  cases h <;> rfl

theorem afterIndex_jumpAfter (x : Index) (op : Byte) :
    (afterIndex x op).EndsAfter (JumpAfter 1) := by
  unfold afterIndex
  split
  · apply jumpAfter_of_ends
    exact fun d op => bitOperation_distance? op _ _
  · exact mainTable_jumpAfter (.index x) op

theorem afterFirst_jumpAfter {op : Byte} (hindex : index? op = none) :
    (afterFirst op).EndsAfter (JumpAfter 1) := by
  obtain ⟨hdd, hfd⟩ := index?_eq_none_iff.mp hindex
  unfold afterFirst
  rw [if_neg hdd, if_neg hfd]
  split
  · apply jumpAfter_of_ends
    exact fun op => bits_distance? op
  · split
    · apply jumpAfter_of_ends
      exact fun op => extended_distance? op
    · exact mainTable_jumpAfter .hl op

end Encoding

namespace Machine

open Encoding Reader

variable {m : Machine} {j : RelativeJump} {d : Byte} {e : Int}

/-- Whether the instruction at the program counter has a `DD` or `FD` byte before it. -/
def prefixed (m : Machine) : Bool := (index? (m.codeByte 0)).isSome

/-- A relative jump has two bytes behind its prefix, if it has one. -/
theorem length_bytes_of_jump (h : m.instruction.distance? ≠ none) :
    (m.fetch Instruction.reader).bytes.length = m.prefixed.toNat + 2 := by
  unfold prefixed
  cases hindex : index? (m.codeByte 0) with
  | none =>
      have hrest := (afterFirst_jumpAfter hindex).fetch m.afterFirst
      rw [instruction, fetch_reader] at h
      rw [fetch_reader, List.length_cons, hrest h]
      rfl
  | some x =>
      cases hover : overridesPrefix (m.codeByte 1) with
      | true =>
          -- a prefix that stands alone does not jump
          rw [instruction, fetch_overridden hindex hover] at h
          contradiction
      | false =>
          have hrest := (afterIndex_jumpAfter x (m.codeByte 1)).fetch m.afterIndex
          rw [instruction, fetch_indexed hindex hover] at h
          rw [fetch_indexed hindex hover, List.length_cons, List.length_cons, hrest h]
          rfl

/-- The line of a jump tells which jump is at the program counter. -/
theorem instruction_of_line_eq (hline : m.line = j.line e) :
    ∃ d : Byte, m.instruction = j.instruction d ∧ e = d.toInt + 2 := by
  have hstatement := statement_of_line (j.plain_statement e) hline
  have hinstruction : m.instruction = j.instruction (BitVec.ofInt 8 (e - 2)) := by
    have hread := instruction?_of_line (j.plain_statement e) hline
    rw [j.instruction?_statement e] at hread
    exact (Option.some.inj hread).symm
  refine ⟨_, hinstruction, ?_⟩
  rw [hinstruction, j.statement_instruction] at hstatement
  exact (RelativeJump.statement_inj hstatement).symm

/-- A jump that is taken goes on at its distance from the address behind it. -/
theorem pc_execute_jump (m : Machine) (j : RelativeJump) (d : Byte) :
    (m.execute (j.instruction d)).registers.pc =
      if j.taken m.registers then m.registers.pc.offset d else m.registers.pc := by
  cases j with
  | djnz =>
      show (m.countDown d).2.registers.pc = _
      unfold countDown RelativeJump.taken
      dsimp only
      by_cases hlast : m.registers.b - 1 = 0
      · rw [if_pos (beq_iff_eq.mpr hlast), if_neg (bne_iff_ne.not.mpr (not_not_intro hlast))]
      · rw [if_neg (beq_iff_eq.not.mpr hlast), if_pos (bne_iff_ne.mpr hlast)]
        rfl
  | jr cond =>
      cases cond with
      | none => rfl
      | some cond =>
          exact apply_ite (fun m : Machine => m.registers.pc) (cond.holds m.registers.f = true)
            (m.jumpRelative d) m

/-- A relative jump never fails.  If it is taken it goes to the target on its line, but with a
prefix one byte further; if not, it goes on behind its last byte. -/
theorem relative_jump_from_line (m : Machine) (j : RelativeJump) (e : Int)
    (hrunning : m.registers.halted = false) (hint : m.interruptPending = false)
    (hnmi : m.nmiPending = false) (hline : m.line = j.line e) :
    ∃ report, m.step.1 = .ok report ∧ report.pc = m.registers.pc ∧
      m.step.2.registers.pc =
        if j.taken m.registers then
          report.pc + BitVec.ofInt 16 e + BitVec.ofNat 16 m.prefixed.toNat
        else m.behind := by
  obtain ⟨d, hinstruction, rfl⟩ := instruction_of_line_eq hline
  have hjump : m.instruction.distance? ≠ none := by
    rw [hinstruction, j.distance?_instruction]
    exact Option.some_ne_none d
  have hhole : ¬m.AtHole := by
    rw [atHole_iff_text, Instruction.text_eq_data_iff]
    rintro ⟨opcode, hundefined⟩
    rw [hundefined] at hjump
    contradiction
  have hstep := step_of_due_none (due_eq_none hint hnmi) hrunning hhole
  have htaken : j.taken m.ready.registers = j.taken m.registers := by
    rw [registers_ready]
    cases j with
    | djnz => rfl
    | jr cond => cases cond <;> rfl
  have hpc : m.executed.registers.pc =
      if j.taken m.registers then m.behind.offset d else m.behind := by
    rw [← htaken, ← pc_ready, ← pc_execute_jump m.ready j d, ← hinstruction]
    rfl
  rw [hstep]
  refine ⟨_, rfl, rfl, hpc.trans ?_⟩
  have htarget : m.behind.offset d =
      m.registers.pc + BitVec.ofInt 16 (d.toInt + 2) + BitVec.ofNat 16 m.prefixed.toNat := by
    rw [← pc_ready, registers_ready]
    dsimp only
    rw [length_bytes_of_jump hjump, Word.offset, BitVec.ofNat_add, BitVec.ofInt_add]
    show m.registers.pc + (BitVec.ofNat 16 m.prefixed.toNat + 2) + BitVec.ofInt 16 d.toInt =
      m.registers.pc + (BitVec.ofInt 16 d.toInt + 2) + BitVec.ofNat 16 m.prefixed.toNat
    ac_rfl
  rw [htarget]
  rfl

/-- A machine with given bytes at the start of its memory. -/
def jumpExample (bytes : List Byte) : Machine where
  registers := { b := 2 }
  bus.ram := Store.load (.fill 0 16) 0 bytes

theorem djnz_jumps_below_zero :
    (jumpExample [0x10, 0xFC]).line = "DJNZ $-2" ∧
      (jumpExample [0x10, 0xFC]).step.2.registers.pc = 0xFFFE := by
  have hline : (jumpExample [0x10, 0xFC]).line = RelativeJump.djnz.line (-2) := by decide
  obtain ⟨report, -, hreport, hpc⟩ :=
    relative_jump_from_line (jumpExample [0x10, 0xFC]) .djnz (-2) rfl rfl rfl hline
  rw [hreport] at hpc
  exact ⟨hline, hpc⟩

/-- Behind a prefix a jump that is written as a jump to itself goes on at its second byte. -/
theorem prefixed_jump_misses_itself :
    (jumpExample [0xDD, 0x18, 0xFE]).line = (RelativeJump.jr none).line 0 ∧
      (jumpExample [0xDD, 0x18, 0xFE]).line = "JR $" ∧
      ∃ report, (jumpExample [0xDD, 0x18, 0xFE]).step.1 = .ok report ∧ report.pc = 0 ∧
        (jumpExample [0xDD, 0x18, 0xFE]).step.2.registers.pc = 1 ∧
        (jumpExample [0xDD, 0x18, 0xFE]).step.2.registers.pc ≠
          report.pc + BitVec.ofInt 16 0 := by
  refine ⟨by decide, by decide, _, rfl, rfl, rfl, ?_⟩
  decide

end Machine
end Z80Machine
