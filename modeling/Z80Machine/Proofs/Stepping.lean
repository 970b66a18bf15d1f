import Z80Machine.Machine.Step
import Z80Machine.Proofs.FirstInstruction
import Z80Machine.Proofs.Frames

/-!
# What a step can do

A step serves the request whose turn it is and is then idle, fails or executes one
instruction (`step_cases`), and which of the three it is can be seen from the halt
state and from two bytes of memory.  For each of the three the machine that is left
is described by what has changed in it.
-/

namespace Z80Machine
namespace Machine

variable (m : Machine)

/-- The machine that has failed to read an instruction: its bytes are in the history. -/
def failed : Machine := { m with bus.history := (m.codeReads 2).reverse ++ m.bus.history }

/-- The instruction in memory. -/
def instruction : Instruction := (m.fetch Instruction.reader).value

/-- The machine that is about to carry out the instruction it has read. -/
def ready : Machine := { (m.fetch Instruction.reader).machine with enableDelay := false }

/-- The machine that has carried out the instruction. -/
def executed : Machine :=
  let after := m.ready.execute m.instruction
  { after with count := after.count + 1 }

/-- Whether the next step carries out an instruction. -/
def Executes (i : Instruction) : Prop := m.serve.registers.halted = false ∧ m.serve.instruction = i

instance (i : Instruction) : Decidable (m.Executes i) := inferInstanceAs (Decidable (_ ∧ _))

/-- The machine after a number of steps. -/
def afterSteps (m : Machine) : Nat → Machine
  | 0 => m
  | n + 1 => m.step.2.afterSteps n

theorem afterSteps_succ (n : Nat) : m.afterSteps (n + 1) = (m.afterSteps n).step.2 := by
  induction n generalizing m with
  | zero => rfl
  | succ n ih => exact ih m.step.2

/-! ### Serving a request -/

theorem extends_leaveHalt : m.Extends m.leaveHalt := by
  unfold leaveHalt
  split
  · exact .registers m _
  · exact .refl m

theorem extends_handler : m.Extends m.handler.2 := by
  unfold handler
  split
  · -- nothing is recorded where the data bus floats
    refine Extends.trans ?_ (extends_readWord _ _)
    split
    · exact ⟨rfl, List.suffix_cons _ _, rfl, rfl⟩
    · exact .refl m
  · exact .refl m

theorem extends_interrupt : m.Extends m.interrupt.2 := by
  unfold interrupt
  split
  · exact ((((extends_leaveHalt m).then_registers _).trans (extends_push _ _)).trans
      (extends_handler _)).then_registers _
  · exact .refl m

theorem extends_nmi : m.Extends m.nmi :=
  ((extends_leaveHalt m).then_registers _).trans (extends_call _ _)

theorem serve_of_nonMaskable {m : Machine} (h : m.due = some .nonMaskable) :
    m.serve = { m with nmiPending := false }.nmi := by
  simp only [serve, h]

theorem serve_of_maskable {m : Machine} (h : m.due = some .maskable) :
    m.serve = { m with interruptPending := false }.interrupt.2 := by
  simp only [serve, h]

theorem serve_of_none {m : Machine} (h : m.due = none) : m.serve = m := by
  simp only [serve, h]

theorem due_eq_none {m : Machine} (hint : m.interruptPending = false)
    (hnmi : m.nmiPending = false) : m.due = none := by
  simp [Cpu.due, hint, hnmi]

/-- Serving a request uses it up, and leaves the rest of the control state alone. -/
theorem cpu_serve :
    m.serve.toCpu =
      { m.toCpu with
        registers := m.serve.registers
        nmiPending := m.nmiPending && decide (m.due ≠ some .nonMaskable)
        interruptPending := m.interruptPending && decide (m.due ≠ some .maskable) } := by
  cases hdue : m.due with
  | none =>
      rw [serve_of_none hdue]
      simp
  | some request =>
      cases request with
      | nonMaskable =>
          rw [serve_of_nonMaskable hdue]
          simpa using (extends_nmi { m with nmiPending := false }).cpu
      | maskable =>
          rw [serve_of_maskable hdue]
          simpa using (extends_interrupt { m with interruptPending := false }).cpu

/-! ### The failing step -/

variable {m}

theorem length_bytes_of_atHole (h : m.AtHole) : (m.fetch Instruction.reader).bytes.length = 2 := by
  rw [fetch_extended h.1 (Encoding.extended_of_isHole h.2)]
  rfl

/-- Where nothing is found to execute, only the bus has seen it. -/
theorem machine_fetch_of_atHole (h : m.AtHole) :
    (m.fetch Instruction.reader).machine.setRegisters m.registers = m.failed := by
  have hhistory := history_reader m
  rw [length_bytes_of_atHole h] at hhistory
  rw [machine_fetch, failed, ← hhistory]
  rfl

theorem advance_of_atHole (h : m.AtHole) :
    m.advance = (.error (.undefinedOpcode (m.codeByte 1) m.registers.pc), m.failed) := by
  have hvalue : (m.fetch Instruction.reader).value = .undefined (m.codeByte 1) := by
    rcases value_fetch_cases m with ⟨-, -, hvalue⟩ | ⟨hnot, -⟩ | ⟨hnot, -⟩
    · exact hvalue
    · exact absurd h hnot
    · exact absurd h hnot
  rw [← machine_fetch_of_atHole h, advance]
  simp only [hvalue]

theorem advance_of_not_atHole (h : ¬m.AtHole) :
    m.advance =
      (.ok (m.executed.report m.registers.pc (m.fetch Instruction.reader).bytes), m.executed) := by
  have hvalue (opcode : Byte) : (m.fetch Instruction.reader).value ≠ .undefined opcode := by
    rcases value_fetch_cases m with ⟨hhole, -⟩ | ⟨-, -, hei⟩ | ⟨-, -, hregular⟩
    · exact absurd hhole h
    · rw [hei]
      exact Instruction.noConfusion
    · exact hregular.defined opcode
  unfold advance executed instruction ready
  dsimp only
  -- the instruction is carried out unless its value is undefined
  split
  · next opcode heq => exact absurd heq (hvalue opcode)
  · rfl

variable (m)

/-- A step first serves the request whose turn it is. -/
theorem step_eq_of_serve :
    m.step =
      if m.serve.registers.halted then (.ok m.serve.idle.1, m.serve.idle.2)
      else m.serve.advance := rfl

/-- One step is idle, fails or executes an instruction. -/
theorem step_cases :
    (m.serve.registers.halted = true ∧ m.step = (.ok m.serve.idle.1, m.serve.idle.2)) ∨
      (m.serve.registers.halted = false ∧ m.serve.AtHole ∧
        m.step = (.error (.undefinedOpcode (m.serve.codeByte 1) m.serve.registers.pc),
          m.serve.failed)) ∨
      (m.serve.registers.halted = false ∧ ¬m.serve.AtHole ∧
        m.step = (.ok (m.serve.executed.report m.serve.registers.pc
          (m.serve.fetch Instruction.reader).bytes), m.serve.executed)) := by
  rw [step_eq_of_serve]
  cases hhalted : m.serve.registers.halted with
  | true => exact .inl ⟨rfl, rfl⟩
  | false =>
      by_cases hhole : m.serve.AtHole
      · rw [advance_of_atHole hhole]
        exact .inr (.inl ⟨rfl, hhole, rfl⟩)
      · rw [advance_of_not_atHole hhole]
        exact .inr (.inr ⟨rfl, hhole, rfl⟩)

/-- A step that finds an instruction carries it out. -/
theorem step_of_not_atHole {m : Machine} (hrunning : m.serve.registers.halted = false)
    (hhole : ¬m.serve.AtHole) :
    m.step = (.ok (m.serve.executed.report m.serve.registers.pc
      (m.serve.fetch Instruction.reader).bytes), m.serve.executed) := by
  rcases step_cases m with ⟨hhalted, -⟩ | ⟨-, hat, -⟩ | ⟨-, -, hstep⟩
  · rw [hrunning] at hhalted
    contradiction
  · exact absurd hat hhole
  · exact hstep

theorem step_of_due_none {m : Machine} (hdue : m.due = none) (hrunning : m.registers.halted = false)
    (hhole : ¬m.AtHole) :
    m.step = (.ok (m.executed.report m.registers.pc (m.fetch Instruction.reader).bytes),
      m.executed) := by
  have hserve := serve_of_none hdue
  rw [← hserve] at hrunning hhole
  have hstep := step_of_not_atHole hrunning hhole
  rwa [hserve] at hstep

theorem executes_of_due_none {m : Machine} (hdue : m.due = none)
    (hrunning : m.registers.halted = false) : m.Executes m.instruction := by
  unfold Executes
  rw [serve_of_none hdue]
  exact ⟨hrunning, rfl⟩

/-! ### The executing step -/

/-- Reading an instruction moves the program counter behind it. -/
theorem registers_ready :
    m.ready.registers =
      { m.registers with
        pc := m.registers.pc + BitVec.ofNat 16 (m.fetch Instruction.reader).bytes.length
        r := m.ready.registers.r } := by
  unfold ready
  rw [machine_fetch]

theorem ram_ready : m.ready.bus.ram = m.bus.ram := ram_fetch m Instruction.reader

/-- Reading an instruction changes registers and history. -/
theorem cpu_ready :
    m.ready.toCpu = { m.toCpu with registers := m.ready.registers, enableDelay := false } := by
  unfold ready
  rw [machine_fetch]

theorem executed_of_ei {m : Machine} (hei : m.instruction = .ei) :
    m.executed =
      { m.ready with
        registers.iff1 := true
        registers.iff2 := true
        enableDelay := true
        count := m.ready.count + 1 } := by
  rw [executed, hei]
  rfl

theorem enableDelay_executed_of_ne {m : Machine} (hei : m.instruction ≠ .ei) :
    m.executed.enableDelay = false :=
  congrArg Cpu.enableDelay (extends_execute m.ready hei).cpu

/-- Of the control state, executing an instruction changes the count and the delay. -/
theorem cpu_executed :
    m.executed.toCpu =
      { m.toCpu with
        registers := m.executed.registers
        enableDelay := m.executed.enableDelay
        count := m.count + 1 } := by
  have hready := cpu_ready m
  -- `EI` is the one instruction that touches the delay
  by_cases hei : m.instruction = .ei
  · rw [executed_of_ei hei]
    exact congrArg (fun c : Cpu =>
      { c with
        registers := { m.ready.registers with iff1 := true, iff2 := true }
        enableDelay := true
        count := c.count + 1 }) hready
  · have hafter := (extends_execute m.ready hei).cpu
    rw [enableDelay_executed_of_ne hei]
    calc m.executed.toCpu
      _ = { m.ready.toCpu with registers := m.executed.registers, count := m.ready.count + 1 } :=
          congrArg (fun c : Cpu => { c with count := c.count + 1 }) hafter
      _ = _ := congrArg (fun c : Cpu =>
          { c with registers := m.executed.registers, count := c.count + 1 }) hready

/-- An interrupt is delayed by the instruction that enables interrupts, and by no other. -/
theorem enableDelay_executed {m : Machine} (hhole : ¬m.AtHole) :
    m.executed.enableDelay = true ↔ m.AtEi := by
  rcases value_fetch_cases m with ⟨hnot, -⟩ | ⟨-, hat, hei⟩ | ⟨-, hnotEi, hregular⟩
  · exact absurd hnot hhole
  · rw [executed_of_ei hei]
    exact iff_of_true rfl hat
  · rw [enableDelay_executed_of_ne hregular.ne_ei]
    exact iff_of_false Bool.noConfusion hnotEi

/-- An instruction is read before it is executed. -/
theorem history_executed : m.ready.bus.history <:+ m.executed.bus.history := by
  by_cases hei : m.instruction = .ei
  · rw [executed_of_ei hei]
  · exact (extends_execute m.ready hei).history

/-- What an instruction does not redirect goes on behind its last byte. -/
theorem pc_executed {m : Machine} (hredirects : m.instruction.redirects = false) :
    m.executed.registers.pc =
      m.registers.pc + BitVec.ofNat 16 (m.fetch Instruction.reader).bytes.length := by
  have htarget : ∀ name ∈ m.instruction.wordTarget?, name.isMain = true := by
    unfold instruction
    rcases value_fetch_cases m with ⟨-, -, hvalue⟩ | ⟨-, -, hvalue⟩ | ⟨-, -, hregular⟩
    · rw [hvalue]
      simp [Instruction.wordTarget?]
    · rw [hvalue]
      simp [Instruction.wordTarget?]
    · exact hregular.target
  refine (pc_execute m.ready hredirects htarget).trans ?_
  unfold ready
  rw [machine_fetch]

/-! ### The control state after a step -/

/-- Beyond serving a request, a step changes of the control state the delay and the count. -/
theorem cpu_step :
    m.step.2.toCpu =
      { m.serve.toCpu with
        registers := m.step.2.registers
        enableDelay := m.step.2.enableDelay
        count := m.step.2.count } := by
  rcases step_cases m with ⟨-, hstep⟩ | ⟨-, -, hstep⟩ | ⟨-, -, hstep⟩
  · rw [hstep]
    rfl
  · rw [hstep]
    rfl
  · rw [hstep]
    dsimp only
    rw [cpu_executed]

/-- Whether the next step carries out an instruction that enables interrupts. -/
def ExecutesEi : Prop := m.serve.registers.halted = false ∧ m.serve.AtEi

/-- Whether the next step succeeds. -/
def Succeeds : Prop := ∃ report, m.step.1 = .ok report

theorem succeeds_of_due_none {m : Machine} (hdue : m.due = none)
    (hrunning : m.registers.halted = false) (hhole : ¬m.AtHole) :
    m.Succeeds ∧ m.step.2 = m.executed := by
  have hstep := step_of_due_none hdue hrunning hhole
  exact ⟨⟨_, congrArg Prod.fst hstep⟩, congrArg Prod.snd hstep⟩

/-- An interrupt is delayed after a step that enables interrupts, and after one that fails if
it was before. -/
theorem enableDelay_step :
    m.step.2.enableDelay = true ↔ m.ExecutesEi ∨ (m.enableDelay = true ∧ ¬m.Succeeds) := by
  unfold ExecutesEi Succeeds
  rcases step_cases m with ⟨hhalted, hstep⟩ | ⟨hrunning, hhole, hstep⟩ | ⟨hrunning, hhole, hstep⟩
  · rw [hstep, hhalted]
    simp [idle]
  · -- the failing step puts the delay back that it found
    have hnotEi := not_atEi_of_atHole hhole
    have hdelay : m.serve.failed.enableDelay = m.enableDelay := by
      show m.serve.enableDelay = _
      rw [cpu_serve]
    rw [hstep]
    simp [hnotEi, hdelay]
  · rw [hstep, enableDelay_executed hhole]
    simp [hrunning]

end Machine
end Z80Machine
