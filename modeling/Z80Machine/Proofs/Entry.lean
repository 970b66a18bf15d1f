import Z80Machine.Proofs.Stepping

/-!
# Entering and leaving a handler

What an interrupt does to registers and memory.  Both kinds leave the halt state,
close the maskable interrupts, count a refreshed row, push the address at which the
program goes on (`resumption`), and go to a handler.  The handler opens the interrupts
again with `EI` and goes back with `RETI`.
-/

namespace Z80Machine

/-- The byte that an interrupt finds on the data bus. -/
def Bus.vector (b : Bus) : Byte :=
  match b.dataBus with
  | .driven value => value
  | .floating => 0xFF

namespace Machine

variable (m : Machine)

/-- The address at which the program goes on after an interrupt. -/
def resumption : Word := if m.registers.halted then m.registers.pc + 1 else m.registers.pc

/-- Memory with the way back on the stack. -/
def returnPushed : Store :=
  (m.bus.ram.set (m.registers.sp - 1) m.resumption.high).set (m.registers.sp - 2) m.resumption.low

/-- The table entry of a maskable interrupt in mode 2. -/
def vectorAddress : Word := .ofBytes m.registers.i m.bus.vector

/-- The address of the handler of a maskable interrupt, looked up in the given memory. -/
def handlerIn (s : Store) : Word :=
  if m.registers.im == 2 then .ofBytes (s.get (m.vectorAddress + 1)) (s.get m.vectorAddress)
  else 0x0038

/-- The second machine is the first when it has entered the handler at an address: it is not
halted, it has pushed the way back, and maskable interrupts are disabled. -/
structure EntersHandler (m m' : Machine) (address : Word) (iff2 : Bool) : Prop where
  registers : m'.registers =
    { m.registers with
      halted := false
      iff1 := false
      iff2 := iff2
      r := m.registers.refresh.r
      sp := m.registers.sp - 2
      pc := address }
  ram : m'.bus.ram = m.returnPushed

theorem registers_leaveHalt :
    m.leaveHalt.registers = { m.registers with halted := false, pc := m.resumption } := by
  unfold leaveHalt resumption
  split
  · rfl
  · next hhalted =>
      -- a machine that is not halted stays as it is
      rw [Bool.not_eq_true] at hhalted
      rw [← hhalted]

theorem bus_leaveHalt : m.leaveHalt.bus = m.bus := by
  unfold leaveHalt
  split <;> rfl

/-- A machine that leaves the halt state pushes the way back. -/
theorem ram_push_leaveHalt :
    (m.leaveHalt.push m.leaveHalt.registers.pc).bus.ram = m.returnPushed := by
  rw [ram_push, registers_leaveHalt, bus_leaveHalt, Word.sub_one_sub_one]
  rfl

/-! ### The way back on the stack -/

theorem get_returnPushed (a : Word) (ha : a ∉ m.stackAddresses) :
    m.returnPushed.get a = m.bus.ram.get a := by
  simp only [stackAddresses, List.mem_cons, List.not_mem_nil, or_false, not_or] at ha
  rw [returnPushed, Cells.get_set_of_ne _ _ ha.2, Cells.get_set_of_ne _ _ ha.1]

theorem high_returnPushed : m.returnPushed.get (m.registers.sp - 1) = m.resumption.high := by
  have hne : m.registers.sp - 1 ≠ m.registers.sp - 2 := by
    rw [← Word.sub_one_sub_one]
    exact Word.ne_sub_one _
  rw [returnPushed, Cells.get_set_of_ne _ _ hne, Cells.get_set_self]

theorem low_returnPushed : m.returnPushed.get (m.registers.sp - 2) = m.resumption.low :=
  Cells.get_set_self _ _ _

/-- The way back is found where it has been pushed. -/
theorem ofBytes_returnPushed :
    Word.ofBytes (m.returnPushed.get (m.registers.sp - 1))
      (m.returnPushed.get (m.registers.sp - 2)) = m.resumption := by
  rw [high_returnPushed, low_returnPushed, Word.ofBytes_high_low]

/-! ### Entering -/

/-- A non-maskable interrupt keeps what maskable interrupts were before. -/
theorem entersHandler_nmi : m.EntersHandler m.nmi 0x0066 m.registers.iff2 where
  registers := by
    show { ({ m.leaveHalt.registers with iff1 := false } : Registers).refresh with
      sp := m.leaveHalt.registers.sp - 1 - 1, pc := 0x0066 } = _
    rw [registers_leaveHalt, Word.sub_one_sub_one]
    rfl
  ram := ram_push_leaveHalt m

theorem fst_handler : m.handler.1 = m.handlerIn m.bus.ram := by
  unfold handler handlerIn vectorAddress Bus.vector Bus.acknowledge
  split
  · cases m.bus.dataBus <;> rfl
  · rfl

theorem registers_handler : m.handler.2.registers = m.registers := by
  unfold handler
  split <;> rfl

theorem ram_handler : m.handler.2.bus.ram = m.bus.ram := by
  unfold handler Bus.acknowledge
  split
  · cases m.bus.dataBus <;> rfl
  · rfl

theorem interrupt_of_disabled {m : Machine} (h : m.registers.iff1 = false) :
    m.interrupt = (false, m) := by
  simp [interrupt, h]

/-- The machine that has pushed the way back and is about to go to the handler. -/
def interrupted : Machine :=
  let m := m.leaveHalt
  let m := { m with registers.iff1 := false, registers.iff2 := false }.refresh
  m.push m.registers.pc

theorem interrupt_of_enabled {m : Machine} (h : m.registers.iff1 = true) :
    m.interrupt = (true, m.interrupted.handler.2.jump m.interrupted.handler.1) := by
  simp only [interrupt, h, if_true]
  rfl

theorem registers_interrupted :
    m.interrupted.registers =
      { m.registers with
        halted := false
        iff1 := false
        iff2 := false
        r := m.registers.refresh.r
        sp := m.registers.sp - 2
        pc := m.resumption } := by
  show { ({ m.leaveHalt.registers with iff1 := false, iff2 := false } : Registers).refresh with
    sp := m.leaveHalt.registers.sp - 1 - 1 } = _
  rw [registers_leaveHalt, Word.sub_one_sub_one]
  rfl

theorem ram_interrupted : m.interrupted.bus.ram = m.returnPushed := ram_push_leaveHalt m

/-- An interrupt finds its handler in memory as it is after the push. -/
theorem handlerIn_interrupted (s : Store) : m.interrupted.handlerIn s = m.handlerIn s := by
  have hdataBus : m.interrupted.bus.dataBus = m.bus.dataBus := by
    show m.leaveHalt.bus.dataBus = _
    rw [bus_leaveHalt]
  unfold handlerIn vectorAddress Bus.vector
  rw [registers_interrupted, hdataBus]

/-- A maskable interrupt that is accepted. -/
theorem entersHandler_interrupt {m : Machine} (h : m.registers.iff1 = true) :
    m.EntersHandler m.interrupt.2 (m.handlerIn m.returnPushed) false where
  registers := by
    rw [interrupt_of_enabled h]
    show { m.interrupted.handler.2.registers with pc := m.interrupted.handler.1 } = _
    rw [registers_handler, registers_interrupted, fst_handler, ram_interrupted,
      handlerIn_interrupted]
  ram := by
    rw [interrupt_of_enabled h]
    show m.interrupted.handler.2.bus.ram = _
    rw [ram_handler, ram_interrupted]

/-! ### The instructions of a handler -/

variable {m}

theorem fetch_of_ei (h : m.codeByte 0 = 0xFB) :
    m.fetch Instruction.reader = ⟨.ei, [m.codeByte 0], m.afterFirst⟩ := by
  apply fetch_single
  rw [h]
  rfl

theorem registers_executed_ei (h : m.codeByte 0 = 0xFB) :
    m.executed.registers =
      { m.registers with
        pc := m.registers.pc + 1
        r := m.executed.registers.r
        iff1 := true
        iff2 := true } := by
  have hei : m.instruction = .ei := by rw [instruction, fetch_of_ei h]
  have hready := registers_ready m
  rw [fetch_of_ei h] at hready
  rw [executed_of_ei hei]
  show { m.ready.registers with iff1 := true, iff2 := true } = _
  rw [hready]
  rfl

theorem ram_executed_ei (h : m.codeByte 0 = 0xFB) : m.executed.bus.ram = m.bus.ram := by
  have hei : m.instruction = .ei := by rw [instruction, fetch_of_ei h]
  rw [executed_of_ei hei]
  exact ram_ready m

/-- Whether the instruction at the program counter returns from an interrupt. -/
def AtReti (m : Machine) : Prop := m.codeByte 0 = 0xED ∧ m.codeByte 1 = 0x4D

theorem not_atHole_of_atReti (h : m.AtReti) : ¬m.AtHole := by
  rintro ⟨-, hhole⟩
  rw [h.2] at hhole
  contradiction

theorem fetch_of_atReti (h : m.AtReti) :
    m.fetch Instruction.reader =
      ⟨.reti, [m.codeByte 0, m.codeByte 1], m.afterFirst.refresh.fetchByte.2⟩ := by
  apply fetch_extended h.1
  rw [h.2]
  rfl

theorem instruction_of_atReti (h : m.AtReti) : m.instruction = .reti := by
  rw [instruction, fetch_of_atReti h]

theorem registers_executed_reti (h : m.AtReti) :
    m.executed.registers =
      { m.registers with
        pc := .ofBytes (m.bus.ram.get (m.registers.sp + 1)) (m.bus.ram.get m.registers.sp)
        sp := m.registers.sp + 1 + 1
        r := m.executed.registers.r
        iff1 := true } := by
  have hexecuted : m.executed.registers =
      { m.ready.registers with
        pc := .ofBytes (m.ready.bus.ram.get (m.ready.registers.sp + 1))
          (m.ready.bus.ram.get m.ready.registers.sp)
        sp := m.ready.registers.sp + 1 + 1
        iff1 := true } := by
    rw [executed, instruction_of_atReti h]
    rfl
  rw [hexecuted, ram_ready, registers_ready]

theorem ram_executed_reti (h : m.AtReti) : m.executed.bus.ram = m.bus.ram := by
  have hexecuted : m.executed.bus.ram = m.ready.bus.ram := by
    rw [executed, instruction_of_atReti h]
    rfl
  rw [hexecuted, ram_ready]

end Machine
end Z80Machine
