import Z80Machine.Proofs.InterruptedCopy
import Z80Machine.Proofs.Requests

/-!
# Returning from a non-maskable interrupt

A non-maskable interrupt clears the first interrupt flip-flop and keeps the second, and
`RETN` copies the second to the first.  With a handler that is nothing but `RETN`, one
step goes through the interrupt and back: program counter, stack and memory are as they
were, and of the registers only the first flip-flop can differ (`nmi_returns`).  It does
if the two flip-flops were different before, which is so after `RETI`.
-/

namespace Z80Machine
namespace Machine

variable {m : Machine}

/-! ### The instruction `RETN` -/

theorem fetch_of_retn (hed : m.codeByte 0 = 0xED) (hop : m.codeByte 1 = 0x45) :
    m.fetch Instruction.reader =
      ⟨.retn, [m.codeByte 0, m.codeByte 1], m.afterFirst.refresh.fetchByte.2⟩ := by
  apply fetch_extended hed
  rw [hop]
  rfl

theorem executed_retn (h : m.instruction = .retn) :
    m.executed.registers =
        { m.registers with
          pc := .ofBytes (m.bus.ram.get (m.registers.sp + 1)) (m.bus.ram.get m.registers.sp)
          sp := m.registers.sp + 1 + 1
          r := m.executed.registers.r
          iff1 := m.registers.iff2 } ∧
      m.executed.bus.ram = m.bus.ram := by
  have hexecuted : m.executed.registers =
      { m.ready.registers with
        pc := .ofBytes (m.ready.bus.ram.get (m.ready.registers.sp + 1))
          (m.ready.bus.ram.get m.ready.registers.sp)
        sp := m.ready.registers.sp + 1 + 1
        iff1 := m.ready.registers.iff2 } := by
    rw [executed, h]
    rfl
  have hram : m.executed.bus.ram = m.ready.bus.ram := by
    rw [executed, h]
    rfl
  rw [hexecuted, hram, ram_ready, registers_ready]
  exact ⟨rfl, rfl⟩

/-! ### There and back -/

/-- The handler of non-maskable interrupts is nothing but `RETN`, and the next word to be
pushed does not overwrite it. -/
structure RetnHandler (m : Machine) : Prop where
  first : m.bus.ram.get 0x0066 = 0xED
  second : m.bus.ram.get 0x0067 = 0x45
  stack : ∀ a ∈ m.stackAddresses, a ≠ 0x0066 ∧ a ≠ 0x0067

/-- A non-maskable interrupt that has been asked for is served first, whatever else is pending. -/
theorem entersHandler_requestNmi (m : Machine) :
    m.EntersHandler m.requestNmi.serve 0x0066 m.registers.iff2 := by
  rw [serve_of_nonMaskable rfl]
  obtain ⟨hregisters, hram⟩ := entersHandler_nmi { m.requestNmi with nmiPending := false }
  exact ⟨hregisters, hram⟩

/-- The handler is read from memory as it is after the push. -/
theorem RetnHandler.codeBytes (hhandler : m.RetnHandler) {s : Machine} {iff2 : Bool}
    (h : m.EntersHandler s 0x0066 iff2) : s.codeByte 0 = 0xED ∧ s.codeByte 1 = 0x45 := by
  constructor
  · rw [codeByte_zero, h.registers, h.ram,
      get_returnPushed m _ fun hmem => (hhandler.stack _ hmem).1 rfl]
    exact hhandler.first
  · rw [codeByte, h.registers, h.ram]
    show m.returnPushed.get 0x0067 = 0x45
    rw [get_returnPushed m _ fun hmem => (hhandler.stack _ hmem).2 rfl]
    exact hhandler.second

/-- The machine that has entered a handler at `RETN` comes back with the next instruction. -/
theorem EntersHandler.executed_retn {s : Machine} {address : Word} {iff2 : Bool}
    (h : m.EntersHandler s address iff2) (hinstruction : s.instruction = .retn) :
    s.executed.registers =
        { m.registers with
          halted := false
          iff1 := iff2
          iff2 := iff2
          pc := m.resumption
          r := s.executed.registers.r } ∧
      s.executed.bus.ram = m.returnPushed := by
  obtain ⟨hregisters, hram⟩ := Machine.executed_retn hinstruction
  constructor
  · refine hregisters.trans ?_
    rw [h.ram, h.registers]
    dsimp only
    rw [Word.sub_two_add_one, ofBytes_returnPushed, BitVec.sub_add_cancel]
  · rw [hram, h.ram]

/-- What a step leaves behind that goes through a non-maskable interrupt and back. -/
theorem step_requestNmi (hrunning : m.registers.halted = false) (hhandler : m.RetnHandler) :
    (∃ report, m.requestNmi.step.1 = .ok report) ∧
      m.requestNmi.step.2.registers =
        { m.registers with
          iff1 := m.registers.iff2
          r := m.requestNmi.step.2.registers.r } ∧
      ∀ a ∉ m.stackAddresses, m.requestNmi.step.2.bus.ram.get a = m.bus.ram.get a := by
  have hentry := entersHandler_requestNmi m
  obtain ⟨hed, hop⟩ := hhandler.codeBytes hentry
  have hinstruction : m.requestNmi.serve.instruction = .retn := by
    rw [instruction, fetch_of_retn hed hop]
  have hhole : ¬m.requestNmi.serve.AtHole := by
    rintro ⟨-, hhole⟩
    rw [hop] at hhole
    contradiction
  have hresumption : m.resumption = m.registers.pc := if_neg (by simp [hrunning])
  obtain ⟨hback, hram⟩ := hentry.executed_retn hinstruction
  rw [step_of_not_atHole (by rw [hentry.registers]) hhole]
  refine ⟨⟨_, rfl⟩, hback.trans ?_, fun a ha => ?_⟩
  · rw [hresumption, ← hrunning]
  · rw [hram]
    exact get_returnPushed m a ha

/-- A step that goes through a non-maskable interrupt succeeds and comes back to where the
program was, with the memory outside the stack as it was.  Of the registers beside the refresh
counter it changes at most the first interrupt flip-flop, to what the second one holds.  So the
interrupt cannot be seen if and only if the two flip-flops were equal. -/
theorem nmi_returns (m : Machine) (hrunning : m.registers.halted = false)
    (hhandler : m.RetnHandler) :
    (∃ report, m.requestNmi.step.1 = .ok report) ∧
      m.requestNmi.step.2.registers =
        { m.registers with
          iff1 := m.registers.iff2
          r := m.requestNmi.step.2.registers.r } ∧
      (∀ a ∉ m.stackAddresses, m.requestNmi.step.2.bus.ram.get a = m.bus.ram.get a) ∧
      (m.requestNmi.step.2.registers =
          { m.registers with r := m.requestNmi.step.2.registers.r } ↔
        m.registers.iff1 = m.registers.iff2) := by
  obtain ⟨hok, hback, hram⟩ := step_requestNmi hrunning hhandler
  refine ⟨hok, hback, hram, ?_⟩
  constructor
  · intro hsame
    have hiff1 := congrArg Registers.iff1 hsame
    rw [hback] at hiff1
    exact hiff1.symm
  · intro hiff
    rw [← hiff] at hback
    exact hback

/-- A bus with `EI` at the start of memory, `RETI` as the handler of maskable interrupts and
`RETN` as that of the others. -/
def nestedBus : Bus where
  ram := ((Store.load (.fill 0 16) 0 [0xFB]).load 0x0038 [0xED, 0x4D]).load 0x0066 [0xED, 0x45]

/-- A stack at the top of memory does not reach the handler. -/
theorem RetnHandler.of_top (hfirst : m.bus.ram.get 0x0066 = 0xED)
    (hsecond : m.bus.ram.get 0x0067 = 0x45) (hsp : m.registers.sp = 0) : m.RetnHandler where
  first := hfirst
  second := hsecond
  stack := by simp [stackAddresses, hsp]

/-- Right after `EI` a non-maskable interrupt cannot be seen. -/
theorem nmi_returns_after_ei :
    (driven {} nestedBus [.step]).registers.iff1 = true ∧
      (driven {} nestedBus [.step]).requestNmi.step.2.registers =
        { (driven {} nestedBus [.step]).registers with
          r := (driven {} nestedBus [.step]).requestNmi.step.2.registers.r } := by
  have hrunning : (driven {} nestedBus [.step]).registers.halted = false := by decide
  have hhandler : (driven {} nestedBus [.step]).RetnHandler :=
    .of_top (by decide) (by decide) (by decide)
  obtain ⟨-, -, -, hinvisible⟩ := nmi_returns (driven {} nestedBus [.step]) hrunning hhandler
  exact ⟨by decide, hinvisible.mpr (by decide)⟩

/-- `EI`, another instruction, and a maskable interrupt that has been served. -/
def servedCalls : List Call := [.step, .step, .requestInterrupt, .step]

/-- Once a maskable interrupt has returned with `RETI`, the first flip-flop is set and the
second is clear, and a non-maskable interrupt leaves maskable ones disabled. -/
theorem nmi_disables_after_reti :
    (driven {} nestedBus servedCalls).registers.halted = false ∧
      (driven {} nestedBus servedCalls).interruptPending = false ∧
      (driven {} nestedBus servedCalls).RetnHandler ∧
      (driven {} nestedBus servedCalls).registers.iff1 = true ∧
      (driven {} nestedBus servedCalls).requestNmi.step.2.registers.iff1 = false := by
  have hrunning : (driven {} nestedBus servedCalls).registers.halted = false := by decide
  have hhandler : (driven {} nestedBus servedCalls).RetnHandler :=
    .of_top (by decide) (by decide) (by decide)
  obtain ⟨-, hregisters, -⟩ := step_requestNmi hrunning hhandler
  refine ⟨hrunning, by decide, hhandler, by decide, ?_⟩
  rw [hregisters]
  decide

end Machine
end Z80Machine
