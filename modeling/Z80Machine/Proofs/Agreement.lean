import Z80Machine.Proofs.Disassembly
import Z80Machine.Proofs.Failure

/-!
# Execution and disassembly agree

The processor and the disassembler read memory with two tables.  Both take the same
bytes for an instruction, whatever stands behind them, and the disassembler writes
down the instruction that is carried out (`disassemble_dump`).  A line of its text
tells whether a step fails, as only undefined opcodes are written as data
(`text_eq_data_iff`).
-/

namespace Z80Machine

/-! ### Lines -/

/-- Bytes written with spaces between them. -/
theorem length_intercalate_bytes {bytes : List Byte} (h : bytes ≠ []) :
    (" ".intercalate (bytes.map Hex.byte)).length + 1 = 3 * bytes.length := by
  induction bytes with
  | nil => contradiction
  | cons b bytes ih =>
      cases bytes with
      -- a single byte has no space beside it
      | nil => simp
      | cons b' bytes =>
          have hrest := ih (List.cons_ne_nil b' bytes)
          simp only [List.map_cons, String.intercalate_cons_cons, String.length_append,
            Hex.length_byte, List.length_cons] at hrest ⊢
          have hspace : " ".length = 1 := rfl
          omega

/-- The bytes of an instruction fit into their column. -/
theorem length_traceColumn {bytes : List Byte} (hne : bytes ≠ []) (hle : bytes.length ≤ 4) :
    (traceColumn bytes).length = 11 := by
  have hlength := length_intercalate_bytes hne
  rw [traceColumn, String.length_pushn]
  omega

namespace Instruction

/-- Only an undefined opcode is written as data. -/
theorem initials_eq_data_iff (i : Instruction) :
    i.text.toList.take 2 = ['D', 'B'] ↔ ∃ opcode, i = .undefined opcode := by
  cases i with
  | operate op =>
      cases op <;>
        simp [text, Statement.text, statement, Operation.text, Operation.namesAccumulator]
  | adjust op => cases op <;> simp [text, Statement.text, statement, Adjustment.text]
  | shift op => cases op <;> simp [text, Statement.text, statement, Shift.text]
  | block op dir repeats =>
      cases op <;> cases dir <;> cases repeats <;>
        simp [text, Statement.text, statement, BlockOperation.text]
  | ret cond => cases cond <;> simp [text, Statement.text, statement, conditionOperand]
  | inC target => cases target <;> simp [text, Statement.text, statement]
  | outC source => cases source <;> simp [text, Statement.text, statement]
  | _ => simp [text, Statement.text, statement]

theorem text_undefined (opcode : Byte) :
    (undefined opcode).text = "DB $ED," ++ Text.byte opcode := by
  rfl

/-- The text of an instruction is data behind `ED` just if its opcode is undefined. -/
theorem text_eq_data_iff (i : Instruction) :
    (∃ rest, i.text = "DB $ED," ++ rest) ↔ ∃ opcode, i = .undefined opcode := by
  constructor
  · rintro ⟨rest, htext⟩
    -- two letters are enough, as no other name begins with them
    rw [← initials_eq_data_iff, htext, String.toList_append]
    rfl
  · rintro ⟨opcode, rfl⟩
    exact ⟨Text.byte opcode, text_undefined opcode⟩

end Instruction

namespace Machine

open Instruction

/-! ### Memory read twice -/

/-- The disassembler writes down the instruction that the processor finds, from any
list of bytes that holds all of it. -/
theorem disassemble_dump (m : Machine) {count : Nat}
    (hcount : (m.fetch Instruction.reader).bytes.length ≤ count) :
    disassemble (m.bus.ram.dump m.registers.pc count) = m.instruction.text ∧
      disassembledLength (m.bus.ram.dump m.registers.pc count) =
        (m.fetch Instruction.reader).bytes.length := by
  have hparse := parse_dump_reader m hcount
  rw [disassemble_eq, disassembledLength_eq, ofBytes, Instruction.length, hparse]
  exact ⟨rfl, rfl⟩

/-- The instruction in memory is undefined just if its text is data. -/
theorem atHole_iff_text (m : Machine) :
    m.AtHole ↔ ∃ rest, m.instruction.text = "DB $ED," ++ rest := by
  rw [text_eq_data_iff]
  unfold instruction
  rcases value_fetch_cases m with ⟨hhole, -, hvalue⟩ | ⟨hnot, -, hvalue⟩ | ⟨hnot, -, hregular⟩
  · exact iff_of_true hhole ⟨_, hvalue⟩
  · refine iff_of_false hnot ?_
    rintro ⟨opcode, hundefined⟩
    rw [hvalue] at hundefined
    contradiction
  · refine iff_of_false hnot ?_
    rintro ⟨opcode, hundefined⟩
    exact hregular.defined opcode hundefined

/-- A step reads its instruction before it does anything else with the bus. -/
theorem since_executed (m : Machine) :
    m.executed.bus.since m.bus =
      m.codeReads (m.fetch Instruction.reader).bytes.length ++
        m.executed.bus.since m.ready.bus := by
  obtain ⟨data, hdata⟩ := history_executed m
  have hafter : m.executed.bus.since m.ready.bus = data.reverse :=
    Bus.since_eq (by rw [← hdata, List.reverse_reverse])
  -- the history grows at its front, first by the code and then by the data
  have hready : m.ready.bus.history =
      (m.codeReads (m.fetch Instruction.reader).bytes.length).reverse ++ m.bus.history :=
    history_reader m
  rw [hafter]
  apply Bus.since_eq
  rw [← hdata, hready, List.reverse_append, List.reverse_reverse, List.append_assoc]

/-- What a step reads, carries out and reports is what the disassembler finds in the four
bytes of memory at the program counter, and the step fails just if the disassembler finds
an undefined opcode behind `ED`. -/
theorem step_agrees_with_disassembly (m : Machine) (hrunning : m.registers.halted = false)
    (hint : m.interruptPending = false) (hnmi : m.nmiPending = false) :
    (∀ report, m.step.1 = .ok report →
      ∃ n, 1 ≤ n ∧ n ≤ 4 ∧
        (m.fetch Instruction.reader).bytes = m.bus.ram.dump m.registers.pc n ∧
        m.step.2.bus.since m.bus = m.codeReads n ++ m.step.2.bus.since m.ready.bus ∧
        disassembledLength (m.bus.ram.dump m.registers.pc 4) = n ∧
        disassemble (m.bus.ram.dump m.registers.pc n) =
          disassemble (m.bus.ram.dump m.registers.pc 4) ∧
        disassemble (m.bus.ram.dump m.registers.pc 4) = m.instruction.text ∧
        (traceColumn (m.bus.ram.dump m.registers.pc n)).length = 11 ∧
        (m.config.trace = true →
          report.trace =
            some (Hex.word m.registers.pc ++ "  " ++
              traceColumn (m.bus.ram.dump m.registers.pc n) ++ "  " ++
              disassemble (m.bus.ram.dump m.registers.pc 4))) ∧
        (m.instruction.redirects = false →
          m.step.2.registers.pc = m.registers.pc + BitVec.ofNat 16 n)) ∧
    ((∃ error, m.step.1 = .error error) ↔
      ∃ rest, disassemble (m.bus.ram.dump m.registers.pc 4) = "DB $ED," ++ rest) := by
  have hserve : m.serve = m := serve_of_none (by simp [Cpu.due, hint, hnmi])
  obtain ⟨hone, hfour⟩ := length_bytes_reader m
  obtain ⟨htextFour, hlengthFour⟩ := disassemble_dump m hfour
  obtain ⟨htext, -⟩ := disassemble_dump m (Nat.le_refl _)
  have hbytes := bytes_fetch m Instruction.reader
  have hstep := step_cases m
  rw [hserve] at hstep
  constructor
  · intro report hok
    rcases hstep with ⟨hhalted, -⟩ | ⟨-, -, hfail⟩ | ⟨-, -, hstep⟩
    · rw [hrunning] at hhalted
      contradiction
    · rw [hfail] at hok
      contradiction
    · rw [hstep] at hok ⊢
      obtain rfl := Except.ok.inj hok
      refine ⟨_, hone, hfour, hbytes, since_executed m, hlengthFour, htext.trans htextFour.symm,
        htextFour, ?_, ?_, pc_executed⟩
      · rw [← hbytes]
        exact length_traceColumn (List.ne_nil_of_length_pos hone) hfour
      · intro htrace
        have hconfig : m.executed.config = m.config := by rw [cpu_executed]
        rw [← hbytes, htextFour, ← htext, ← hbytes, report, hconfig, if_pos htrace]
        rfl
  · rw [htextFour, ← atHole_iff_text]
    constructor
    · rintro ⟨error, herror⟩
      have hhole := (step_error_cases herror).2.1
      rwa [hserve] at hhole
    · intro hhole
      rw [← hserve] at hrunning hhole
      exact ⟨_, step_error_of_atHole hrunning hhole⟩

/-- A machine with an instruction that goes on across the end of memory. -/
def wrappedExample : Machine where
  config := { trace := true }
  registers := { pc := 0xFFFE }
  bus := { ram := Store.load (.fill 0 16) 0xFFFE [0xDD, 0xCB, 0x05, 0xC6] }

theorem step_agrees_across_end :
    ∃ report, wrappedExample.step.1 = .ok report ∧
      report.trace = some "FFFE  DD CB 05 C6  SET 0,(IX+$05)" ∧
      wrappedExample.step.2.registers.pc = 2 := by
  obtain ⟨hagree, hdata⟩ := step_agrees_with_disassembly wrappedExample rfl rfl rfl
  cases hstep : wrappedExample.step.1 with
  | error error =>
      obtain ⟨rest, hrest⟩ := hdata.mp ⟨error, hstep⟩
      have htext : disassemble (wrappedExample.bus.ram.dump wrappedExample.registers.pc 4) =
          "SET 0,(IX+$05)" := rfl
      rw [htext] at hrest
      have hfirst := congrArg (fun s : String => s.toList.head?) hrest
      rw [String.toList_append] at hfirst
      contradiction
  | ok report =>
      obtain ⟨n, -, -, -, -, hlength, -, -, -, htrace, hpc⟩ := hagree report hstep
      obtain rfl : 4 = n := hlength
      exact ⟨report, rfl, htrace rfl, hpc rfl⟩

end Machine
end Z80Machine
