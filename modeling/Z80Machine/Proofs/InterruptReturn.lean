import Mathlib.Logic.Function.Iterate
import Z80Machine.Proofs.NmiReturn

/-!
# Returning from a maskable interrupt

With a handler that is nothing but `RETI`, one step enters the handler and leaves it again.  The
program goes on where it would have gone on, behind the halt instruction if it was halted, with
maskable interrupts enabled by the first flip-flop alone (`interrupt_returns`).  The handler is
looked up when the way back has been pushed, so the push may write the table entry or the handler
itself, and the statement is about memory as it is then.
-/

namespace Z80Machine
namespace Machine

variable {m : Machine}

/-- The address of the handler that a maskable interrupt of the machine enters. -/
def handlerAddress (m : Machine) : Word := m.handlerIn m.returnPushed

/-- The handler of maskable interrupts is nothing but `RETI` once the way back has been pushed. -/
structure RetiHandler (m : Machine) : Prop where
  first : m.returnPushed.get m.handlerAddress = 0xED
  second : m.returnPushed.get (m.handlerAddress + 1) = 0x4D

/-! ### There and back -/

/-- Reading `RETI` counts two rows, and returning counts none. -/
theorem r_executed_reti (h : m.AtReti) :
    m.executed.registers.r = m.registers.refresh.refresh.r := by
  have hready : m.ready.registers.r = m.registers.refresh.refresh.r := by
    rw [ready, fetch_of_atReti h]
    rfl
  rw [← hready, executed, instruction_of_atReti h]
  rfl

/-- The machine that has entered a handler at `RETI` comes back with the next instruction. -/
theorem EntersHandler.executed_reti {s : Machine} {address : Word} {iff2 : Bool}
    (h : m.EntersHandler s address iff2) (hreti : s.AtReti) :
    s.executed.registers =
        { m.registers with
          halted := false
          iff1 := true
          iff2 := iff2
          pc := m.resumption
          r := (Registers.refresh^[3] m.registers).r } ∧
      s.executed.bus.ram = m.returnPushed := by
  have hr : s.executed.registers.r = (Registers.refresh^[3] m.registers).r := by
    rw [r_executed_reti hreti, h.registers]
    rfl
  constructor
  · rw [registers_executed_reti hreti, hr, h.ram, h.registers]
    dsimp only
    rw [Word.sub_two_add_one, ofBytes_returnPushed, BitVec.sub_add_cancel]
  · rw [ram_executed_reti hreti, h.ram]

/-- An interrupt that has just been asked for is served by the next step. -/
theorem due_requestInterrupt (hnmi : m.nmiPending = false) (hdelay : m.enableDelay = false) :
    m.requestInterrupt.due = some .maskable := by
  simp [Cpu.due, requestInterrupt, hnmi, hdelay]

theorem entersHandler_serve (hiff1 : m.registers.iff1 = true) (hnmi : m.nmiPending = false)
    (hdelay : m.enableDelay = false) :
    m.EntersHandler m.requestInterrupt.serve m.handlerAddress false := by
  rw [serve_of_maskable (due_requestInterrupt hnmi hdelay)]
  obtain ⟨hregisters, hram⟩ :=
    entersHandler_interrupt (m := { m.requestInterrupt with interruptPending := false }) hiff1
  exact ⟨hregisters, hram⟩

theorem atReti_of_entersHandler {s : Machine} {iff2 : Bool}
    (h : m.EntersHandler s m.handlerAddress iff2) (hhandler : m.RetiHandler) : s.AtReti := by
  constructor
  · rw [codeByte_zero, h.registers, h.ram]
    exact hhandler.first
  · rw [codeByte, h.registers, h.ram]
    exact hhandler.second

/-- A step that goes through a maskable interrupt succeeds, reports the handler and comes back to
where the program was, behind the halt instruction if the machine was halted.  The first interrupt
flip-flop is set and the second clear, three rows are counted, and the other registers and the
memory outside the stack are as they were. -/
theorem interrupt_returns (m : Machine) (hiff1 : m.registers.iff1 = true)
    (hnmi : m.nmiPending = false) (hdelay : m.enableDelay = false) (hhandler : m.RetiHandler) :
    (∃ report, m.requestInterrupt.step.1 = .ok report ∧ report.pc = m.handlerAddress) ∧
      m.requestInterrupt.step.2.toCpu =
        { m.toCpu with
          registers :=
            { m.registers with
              halted := false
              iff1 := true
              iff2 := false
              pc := m.resumption
              r := (Registers.refresh^[3] m.registers).r }
          interruptPending := false
          count := m.count + 1 } ∧
      m.requestInterrupt.step.2.bus.ram.get (m.registers.sp - 1) = m.resumption.high ∧
      m.requestInterrupt.step.2.bus.ram.get (m.registers.sp - 2) = m.resumption.low ∧
      ∀ a ∉ m.stackAddresses, m.requestInterrupt.step.2.bus.ram.get a = m.bus.ram.get a := by
  have hentry := entersHandler_serve hiff1 hnmi hdelay
  have hreti := atReti_of_entersHandler hentry hhandler
  obtain ⟨hback, hram⟩ := hentry.executed_reti hreti
  have hrunning : m.requestInterrupt.serve.registers.halted = false := by rw [hentry.registers]
  have hstep := step_of_not_atHole hrunning (not_atHole_of_atReti hreti)
  have hserved : m.requestInterrupt.serve.toCpu =
      { m.toCpu with
        registers := m.requestInterrupt.serve.registers
        interruptPending := false } := by
    rw [cpu_serve, due_requestInterrupt hnmi hdelay]
    simp [requestInterrupt]
  have hnotEi : m.requestInterrupt.serve.instruction ≠ .ei := by
    rw [instruction_of_atReti hreti]
    exact Instruction.noConfusion
  rw [hstep]
  refine ⟨⟨_, rfl, congrArg Registers.pc hentry.registers⟩, ?_, ?_, ?_, ?_⟩
  · dsimp only
    rw [cpu_executed, enableDelay_executed_of_ne hnotEi, hback, hserved, hdelay]
  · rw [hram, ← ofBytes_returnPushed m, Word.high_ofBytes]
  · rw [hram, ← ofBytes_returnPushed m, Word.low_ofBytes]
  · intro a ha
    rw [hram]
    exact get_returnPushed m a ha

/-- A halted machine in mode 2 whose table entry lies across the end of memory, just where the way
back is pushed.  So the handler is the program behind the halt instruction. -/
def ownVectorExample : Machine where
  registers :=
    { pc := 0x8000, sp := 0x0001, i := 0xFF, r := 0xFE, iff1 := true, iff2 := true, im := 2,
      halted := true }
  bus.ram := Store.load (.fill 0 16) 0x8000 [0x76, 0xED, 0x4D]

theorem interrupt_returns_through_own_vector :
    ownVectorExample.RetiHandler ∧ ownVectorExample.handlerAddress = 0x8001 ∧
      ownVectorExample.requestInterrupt.step.2.registers.pc = 0x8001 ∧
      ownVectorExample.requestInterrupt.step.2.registers.r = 0x81 ∧
      ownVectorExample.requestInterrupt.step.2.bus.ram.get 0xFFFF = 0x01 := by
  have hhandler : ownVectorExample.RetiHandler := ⟨by decide, by decide⟩
  obtain ⟨-, hcpu, -, hlow, -⟩ := interrupt_returns ownVectorExample rfl rfl rfl hhandler
  have hregisters := congrArg Cpu.registers hcpu
  refine ⟨hhandler, by decide, ?_, ?_, ?_⟩
  · exact congrArg Registers.pc hregisters
  · exact congrArg Registers.r hregisters
  · exact hlow

end Machine
end Z80Machine
