import Z80Machine.Proofs.Agreement
import Z80Machine.Proofs.Alike
import Z80Machine.Proofs.Lines

/-!
# One line, one behaviour

Many encodings share a line of the disassembler: prefixes that have no effect, opcodes that
stand for one another, and the two ways to load HL from a fixed address.  The line determines
the instruction, and two machines that differ in the encoding alone carry it out alike
(`steps_alike_of_line_eq`).  The counter R is excepted, as it counts the bytes of an opcode.
-/

namespace Z80Machine
namespace Machine

variable {m m' : Machine}

/-- The line for the four bytes of memory at the program counter. -/
def line (m : Machine) : String := Instruction.disassemble (m.bus.ram.dump m.registers.pc 4)

/-- The address behind the instruction at the program counter. -/
def behind (m : Machine) : Word :=
  m.registers.pc + BitVec.ofNat 16 (Instruction.length (m.bus.ram.dump m.registers.pc 4))

/-- What the next step does with the bus after it has read its instruction, if no request is
pending. -/
def dataAccesses (m : Machine) : List Access := m.step.2.bus.since m.ready.bus

/-- What the next step does to memory and to the devices. -/
def effects (m : Machine) : List Access := (m.step.2.bus.since m.bus).filter (!·.isRead)

/-! ### The machine that is about to carry out its instruction -/

theorem line_eq_text (m : Machine) : m.line = m.instruction.text :=
  (disassemble_dump m (length_bytes_reader m).2).1

/-- The line is taken apart into the statement of the instruction. -/
theorem statement_of_line {s : Statement} (hs : s.Plain) (hline : m.line = s.text) :
    m.instruction.statement = s := by
  rw [line_eq_text] at hline
  rw [← Statement.ofLine_text m.instruction.plain_statement, ← Statement.ofLine_text hs]
  exact congrArg Statement.ofLine hline

/-- The line is read back as the instruction. -/
theorem instruction?_of_line {s : Statement} (hs : s.Plain) (hline : m.line = s.text) :
    s.instruction? = some m.instruction := by
  rw [← statement_of_line hs hline]
  exact Instruction.instruction?_statement fun _ => isMain_of_mem_byteNames

theorem pc_ready (m : Machine) : m.ready.registers.pc = m.behind := by
  have hlength := (disassemble_dump m (length_bytes_reader m).2).2
  rw [Instruction.disassembledLength_eq] at hlength
  rw [registers_ready, behind, hlength]

theorem devices_ready (m : Machine) : m.ready.bus.devices = m.bus.devices := by
  unfold ready
  rw [machine_fetch]

/-- The one instruction that looks at R has a single encoding, of two bytes. -/
theorem r_ready_of_instruction_eq (h : m.instruction = .loadControl .r) :
    m.ready.registers.r = m.registers.refresh.refresh.r := by
  obtain ⟨hed, hop⟩ := atLoadR_of_instruction_eq h
  unfold ready
  rw [fetch_extended hed (i := .loadControl .r) (by rw [hop]; rfl)]
  rfl

/-- Two machines that differ in their memory and in where their instructions stand are alike
once they have read them, if the instructions end at the same address. -/
theorem alike_ready (hregisters : m'.registers = { m.registers with pc := m'.registers.pc })
    (hdevices : m.bus.devices = m'.bus.devices) (hbehind : m.behind = m'.behind) :
    Alike {a | m.bus.ram.get a = m'.bus.ram.get a} m.ready.bus.history m'.ready.bus.history
      m.ready m'.ready where
  registers := by
    have hpc := (pc_ready m).trans (hbehind.trans (pc_ready m').symm)
    refine ⟨m.ready.registers.r, ?_⟩
    rw [registers_ready m] at hpc ⊢
    rw [registers_ready m'] at hpc ⊢
    dsimp only at hpc ⊢
    rw [hpc, hregisters]
  enableDelay := rfl
  devices := by rw [devices_ready, devices_ready, hdevices]
  ram a ha := by rwa [ram_ready, ram_ready]
  history := ⟨[], rfl, rfl⟩

/-- They are still alike when they have carried out the same instruction. -/
theorem alike_executed (hregisters : m'.registers = { m.registers with pc := m'.registers.pc })
    (hdevices : m.bus.devices = m'.bus.devices) (hbehind : m.behind = m'.behind)
    (hinstruction : m.instruction = m'.instruction)
    (hreads : ReadsWithin {a | m.bus.ram.get a = m'.bus.ram.get a} m.ready
      (m.ready.execute m.instruction)) :
    Alike {a | m.bus.ram.get a = m'.bus.ram.get a} m.ready.bus.history m'.ready.bus.history
      m.executed m'.executed := by
  have hr (hloadR : m.instruction = .loadControl .r) :
      m.ready.registers.r = m'.ready.registers.r := by
    rw [r_ready_of_instruction_eq hloadR, r_ready_of_instruction_eq (hinstruction ▸ hloadR),
      hregisters]
    rfl
  have hafter := (alike_ready hregisters hdevices hbehind).execute
    (fun _ => isMain_of_mem_byteNames) hr hreads
  rw [executed, executed, ← hinstruction]
  exact ⟨hafter.registers, hafter.enableDelay, hafter.devices, hafter.ram, hafter.history⟩

/-! ### The step -/

theorem not_atHole_of_succeeds (hdue : m.due = none) (hrunning : m.registers.halted = false)
    (hok : m.Succeeds) : ¬m.AtHole := by
  intro hhole
  obtain ⟨report, hreport⟩ := hok
  rw [← serve_of_none hdue] at hrunning hhole
  rw [step_error_of_atHole hrunning hhole] at hreport
  contradiction

theorem effects_of_due_none (hdue : m.due = none) (hrunning : m.registers.halted = false)
    (hhole : ¬m.AtHole) : m.effects = m.dataAccesses.filter (!·.isRead) := by
  have hreads :
      (m.codeReads (m.fetch Instruction.reader).bytes.length).filter (!·.isRead) = [] := by
    apply List.filter_eq_nil_iff.mpr
    intro access h
    simp [isRead_of_mem_codeReads h]
  rw [effects, dataAccesses, step_of_due_none hdue hrunning hhole]
  dsimp only
  rw [since_executed, List.filter_append, hreads, List.nil_append]

/-- The accesses of a step to data are those of its instruction. -/
theorem readsWithin_of_dataAccesses {S : Set Word} (hdue : m.due = none)
    (hrunning : m.registers.halted = false) (hhole : ¬m.AtHole)
    (hdata : ∀ address value, .read address value ∈ m.dataAccesses → address ∈ S) :
    ReadsWithin S m.ready (m.ready.execute m.instruction) := by
  intro added hadded address value hmem
  rw [← List.reverse_reverse added] at hadded
  have hsince : m.dataAccesses = added.reverse := by
    rw [dataAccesses, step_of_due_none hdue hrunning hhole]
    exact Bus.since_eq hadded
  refine hdata address value ?_
  rw [hsince]
  exact List.mem_reverse.mpr hmem

/-- Let two machines be alike but for their memory and their program counters, with
instructions that end at the same address and have the same line, and let memory agree where
the first step reads data.  Then the second step succeeds if the first does, and both do the same
to memory and to the devices and come to the same registers, but for R. -/
theorem steps_alike_of_line_eq (m m' : Machine) (hrunning : m.registers.halted = false)
    (hint : m.interruptPending = false) (hnmi : m.nmiPending = false)
    (hint' : m'.interruptPending = false) (hnmi' : m'.nmiPending = false)
    (hregisters : m'.registers = { m.registers with pc := m'.registers.pc })
    (hdevices : m.bus.devices = m'.bus.devices) (hbehind : m.behind = m'.behind)
    (hline : m.line = m'.line) (hok : m.Succeeds)
    (hdata : ∀ address value, .read address value ∈ m.dataAccesses →
      m.bus.ram.get address = m'.bus.ram.get address) :
    m'.Succeeds ∧ m'.dataAccesses = m.dataAccesses ∧ m'.effects = m.effects ∧
      m'.step.2.registers = { m.step.2.registers with r := m'.step.2.registers.r } ∧
      m'.step.2.enableDelay = m.step.2.enableDelay := by
  have hdue : m.due = none := by simp [Cpu.due, hint, hnmi]
  have hdue' : m'.due = none := by simp [Cpu.due, hint', hnmi']
  have hrunning' : m'.registers.halted = false := by rw [hregisters]; exact hrunning
  -- the line tells the instruction, and whether there is one
  rw [line_eq_text, line_eq_text] at hline
  have hinstruction : m.instruction = m'.instruction :=
    Instruction.text_inj (fun _ => isMain_of_mem_byteNames) (fun _ => isMain_of_mem_byteNames) hline
  have hhole := not_atHole_of_succeeds hdue hrunning hok
  have hhole' : ¬m'.AtHole := by rwa [atHole_iff_text, ← hline, ← atHole_iff_text]
  have hstep := step_of_due_none hdue hrunning hhole
  have hstep' := step_of_due_none hdue' hrunning' hhole'
  have halike := alike_executed hregisters hdevices hbehind hinstruction
    (readsWithin_of_dataAccesses hdue hrunning hhole hdata)
  obtain ⟨added, hadded, hadded'⟩ := halike.history
  have haccesses : m'.dataAccesses = m.dataAccesses := by
    rw [← List.reverse_reverse added] at hadded hadded'
    rw [dataAccesses, dataAccesses, hstep, hstep']
    exact (Bus.since_eq hadded').trans (Bus.since_eq hadded).symm
  have heffects : m'.effects = m.effects := by
    rw [effects_of_due_none hdue hrunning hhole, effects_of_due_none hdue' hrunning' hhole',
      haccesses]
  rw [hstep, hstep']
  refine ⟨⟨_, congrArg Prod.fst hstep'⟩, haccesses, heffects, ?_, halike.enableDelay.symm⟩
  obtain ⟨r, hr⟩ := halike.registers
  dsimp only
  rw [hr]

/-- Loads HL from a fixed address by an instruction of three bytes. -/
def shortLoad : Machine where
  registers := { pc := 0x8000 }
  bus.ram := (Store.load (.fill 0 16) 0x8000 [0x2A, 0x00, 0x90]).load 0x9000 [0x34, 0x12]

/-- Loads HL from the same address by an instruction of four bytes. -/
def longLoad : Machine where
  registers := { pc := 0x7FFF }
  bus.ram := (Store.load (.fill 0xFF 16) 0x7FFF [0xED, 0x6B, 0x00, 0x90]).load 0x9000 [0x34, 0x12]

theorem long_load_like_short :
    longLoad.step.2.registers =
        { shortLoad.step.2.registers with r := longLoad.step.2.registers.r } ∧
      shortLoad.step.2.registers.hl = 0x1234 := by
  have haccesses : shortLoad.dataAccesses = [.read 0x9000 0x34, .read 0x9001 0x12] := by decide
  have hdata : ∀ address value, .read address value ∈ shortLoad.dataAccesses →
      shortLoad.bus.ram.get address = longLoad.bus.ram.get address := by
    intro address value hmem
    rw [haccesses] at hmem
    simp only [List.mem_cons, Access.read.injEq, List.not_mem_nil, or_false] at hmem
    rcases hmem with ⟨rfl, -⟩ | ⟨rfl, -⟩ <;> decide
  obtain ⟨-, -, -, hregisters, -⟩ := steps_alike_of_line_eq shortLoad longLoad
    rfl rfl rfl rfl rfl rfl rfl (by decide) (by decide) ⟨_, rfl⟩ hdata
  exact ⟨hregisters, by decide⟩

end Machine
end Z80Machine
