import Z80Machine.Proofs.Calls
import Z80Machine.Proofs.Status

/-!
# Critical sections

Between `DI` and `EI` no maskable interrupt is accepted.  Both flip-flops are clear
then (`Registers.Closed`), and only `EI` and `RETI` set one of them: a non-maskable
interrupt clears the first, and `RETN` copies the second, which is clear.  A run in
which no step executes `EI` or `RETI` therefore stays closed (`closed_acts`).
-/

namespace Z80Machine
namespace Machine

/-- Whether the next step carries out an instruction that returns from a maskable interrupt. -/
def ExecutesReti (m : Machine) : Prop := m.serve.registers.halted = false ∧ m.serve.AtAnyReti

/-- No step of the run executes `EI` or `RETI`. -/
def NeverOpens (m : Machine) : List Call → Prop
  | [] => True
  | call :: calls =>
      (call = .step → ¬m.ExecutesEi ∧ ¬m.ExecutesReti) ∧ (m.act call).NeverOpens calls

theorem NeverOpens.of_append {m : Machine} {before after : List Call}
    (h : m.NeverOpens (before ++ after)) : m.NeverOpens before := by
  induction before generalizing m with
  | nil => trivial
  | cons call before ih => exact ⟨h.1, ih h.2⟩

section Closed

variable {m : Machine}

theorem closed_interrupt (h : m.registers.Closed) : m.interrupt.2.registers.Closed := by
  rw [interrupt_of_disabled h.iff1]
  exact h

theorem closed_nmi (h : m.registers.Closed) : m.nmi.registers.Closed := by
  rw [(entersHandler_nmi m).registers]
  exact ⟨rfl, h.iff2⟩

theorem closed_serve (h : m.registers.Closed) : m.serve.registers.Closed := by
  rcases serve_cases m with ⟨address, iff2, hentry, hiff2⟩ | hsame
  · rw [hentry.registers]
    refine ⟨rfl, ?_⟩
    rcases hiff2 with hclear | hkept
    · exact hclear
    · exact hkept.trans h.iff2
  · rw [hsame]
    exact h

/-- A maskable request that comes up while interrupts are closed is discarded. -/
theorem serve_of_closed (h : m.registers.Closed) (hdue : m.due = some .maskable) :
    m.serve = { m with interruptPending := false } := by
  rw [serve_of_maskable hdue,
    interrupt_of_disabled (m := { m with interruptPending := false }) h.iff1]

theorem closed_executed (hei : ¬m.AtEi) (hreti : ¬m.AtAnyReti) (h : m.registers.Closed) :
    m.executed.registers.Closed :=
  closed_execute (hei ∘ instruction_eq_ei_iff.mp) (hreti ∘ instruction_eq_reti_iff.mp)
    (h.of_status (status_ready m))

theorem closed_step (hei : ¬m.ExecutesEi) (hreti : ¬m.ExecutesReti) (h : m.registers.Closed) :
    m.step.2.registers.Closed := by
  have hserve := closed_serve h
  rcases step_cases m with ⟨-, hstep⟩ | ⟨-, -, hstep⟩ | ⟨hrunning, -, hstep⟩
  · rw [hstep]
    exact hserve.of_status rfl
  · rw [hstep]
    exact hserve
  · rw [hstep]
    exact closed_executed (fun hat => hei ⟨hrunning, hat⟩) (fun hat => hreti ⟨hrunning, hat⟩)
      hserve

theorem closed_act {call : Call} (hopens : call = .step → ¬m.ExecutesEi ∧ ¬m.ExecutesReti)
    (h : m.registers.Closed) : (m.act call).registers.Closed := by
  cases call with
  | requestInterrupt | requestNmi => exact h
  | step =>
      obtain ⟨hei, hreti⟩ := hopens rfl
      exact closed_step hei hreti h
  | interrupt => exact closed_interrupt h
  | nmi => exact closed_nmi h
  | reset =>
      show m.config.powerOn.registers.Closed
      cases m.config.powerOn <;> exact ⟨rfl, rfl⟩

theorem closed_acts {calls : List Call} (hcalls : m.NeverOpens calls) (h : m.registers.Closed) :
    (m.acts calls).registers.Closed := by
  induction calls generalizing m with
  | nil => exact h
  | cons call calls ih => exact ih hcalls.2 (closed_act hcalls.1 h)

end Closed

/-- With both flip-flops clear, and as long as no step executes `EI` or `RETI`, the flip-flops
stay clear and no maskable interrupt is accepted, neither by a call for it nor by a step, which
only discards the request: however calls follow each other, whatever non-maskable interrupts are
taken, and whichever steps fail. -/
theorem critical_section (m : Machine) (hiff1 : m.registers.iff1 = false)
    (hiff2 : m.registers.iff2 = false) (calls : List Call) (hcalls : m.NeverOpens calls) :
    ∀ before after, calls = before ++ after →
      (m.acts before).registers.iff1 = false ∧ (m.acts before).registers.iff2 = false ∧
        (m.acts before).interrupt = (false, m.acts before) ∧
        ((m.acts before).due = some .maskable →
          (m.acts before).serve = { m.acts before with interruptPending := false }) := by
  rintro before after rfl
  have hclosed : (m.acts before).registers.Closed :=
    closed_acts hcalls.of_append ⟨hiff1, hiff2⟩
  refine ⟨hclosed.iff1, hclosed.iff2, ?_, ?_⟩
  · exact interrupt_of_disabled hclosed.iff1
  · intro hdue
    exact serve_of_closed hclosed hdue

instance (m : Machine) : Decidable m.ExecutesEi :=
  inferInstanceAs (Decidable (_ ∧ (_ ∨ ((_ ∨ _) ∧ _))))

instance (m : Machine) : Decidable m.ExecutesReti := inferInstanceAs (Decidable (_ ∧ _ ∧ _))

/-- A machine in a critical section, with `RETN` as its non-maskable handler and an undefined
opcode in its program. -/
def criticalExample : Machine where
  registers := { sp := 0x8000 }
  bus := { ram := (Store.load (.fill 0 16) 0 [0x00, 0xED, 0x77]).load 0x0066 [0xED, 0x45] }

/-- A run with both kinds of requests and two steps that fail. -/
def criticalCalls : List Call :=
  [.requestInterrupt, .step, .step, .requestNmi, .step, .requestInterrupt, .step, .interrupt]

theorem critical_section_under_nmi :
    criticalExample.NeverOpens criticalCalls ∧
      (criticalExample.acts criticalCalls).registers.iff1 = false ∧
      (criticalExample.acts criticalCalls).registers.pc = 1 := by
  have hcalls : criticalExample.NeverOpens criticalCalls := by
    refine ⟨nofun, fun _ => ⟨?_, ?_⟩, fun _ => ⟨?_, ?_⟩, nofun, fun _ => ⟨?_, ?_⟩, nofun,
      fun _ => ⟨?_, ?_⟩, nofun, trivial⟩
    all_goals decide
  obtain ⟨hiff1, -⟩ :=
    critical_section criticalExample rfl rfl _ hcalls criticalCalls [] (List.append_nil _).symm
  exact ⟨hcalls, hiff1, rfl⟩

end Machine
end Z80Machine
