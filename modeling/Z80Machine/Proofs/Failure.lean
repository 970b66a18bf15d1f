import Z80Machine.Proofs.Stepping

/-!
# Steps that fail

A step fails at the opcodes behind `ED` that name no instruction, and nowhere else.
What a failed step leaves behind are the reads in the history of the bus, which cannot
be seen from outside (`visible_failed`).  A machine that has failed therefore fails
again in the same way, until it is asked for an interrupt (`Stuck.afterSteps`).
-/

namespace Z80Machine

open Encoding

namespace Bus

/-- The bus without the reads in its history. -/
def visible (b : Bus) : Bus := { b with history := b.history.filter fun access => !access.isRead }

theorem visible_append_reads (b : Bus) {reads : List Access}
    (h : ∀ access ∈ reads, access.isRead = true) :
    { b with history := reads ++ b.history }.visible = b.visible := by
  have hreads : reads.filter (fun access => !access.isRead) = [] :=
    List.filter_eq_nil_iff.mpr fun access hmem => by simp [h access hmem]
  unfold visible
  rw [List.filter_append, hreads, List.nil_append]

/-- Reads send nothing to a device. -/
theorem sent_visible (b : Bus) : b.visible.sent = b.sent := by
  unfold sent visible
  -- what the filter leaves out is no output
  rw [List.filterMap_filter]
  congr 2
  funext access
  cases access <;> rfl

end Bus

theorem Store.isRead_of_mem_reads {s : Store} {address : Word} {count : Nat} {access : Access}
    (h : access ∈ s.reads address count) : access.isRead = true := by
  induction count generalizing address with
  | zero => contradiction
  | succ count ih =>
      rcases List.mem_cons.mp h with rfl | hrest
      · rfl
      · exact ih hrest

namespace Machine

/-- What can be seen of a machine from outside: all of it but the reads in the history. -/
def visible (m : Machine) : Machine := { m with bus := m.bus.visible }

theorem isRead_of_mem_codeReads {m : Machine} {count : Nat} {access : Access}
    (h : access ∈ m.codeReads count) : access.isRead = true := by
  rcases List.mem_append.mp h with hfirst | hrest
  · rcases List.mem_append.mp hfirst with hfirst | hlook
    · exact Store.isRead_of_mem_reads hfirst
    · split at hlook
      · exact Store.isRead_of_mem_reads hlook
      · contradiction
  · exact Store.isRead_of_mem_reads hrest

/-- A machine that has failed looks as it did before. -/
theorem visible_failed (m : Machine) : m.failed.visible = m.visible := by
  have hreads : ∀ access ∈ (m.codeReads 2).reverse, access.isRead = true :=
    fun access h => isRead_of_mem_codeReads (List.mem_reverse.mp h)
  unfold visible failed
  rw [← Bus.visible_append_reads m.bus hreads]

/-! ### Failing again -/

/-- A machine that cannot go on: it has come to bytes that name no instruction, and it
is no request's turn. -/
structure Stuck (m : Machine) : Prop where
  due : m.due = none
  running : m.registers.halted = false
  atHole : m.AtHole

/-- Where a machine is stuck, and at which opcode. -/
def stuckError (m : Machine) : Error := .undefinedOpcode (m.codeByte 1) m.registers.pc

theorem Stuck.step {m : Machine} (h : m.Stuck) : m.step = (.error m.stuckError, m.failed) := by
  have hserve := serve_of_none h.due
  rcases step_cases m with ⟨hhalted, -⟩ | ⟨-, -, hstep⟩ | ⟨-, hhole, -⟩
  · rw [hserve, h.running] at hhalted
    contradiction
  · rw [hstep, hserve]
    rfl
  · rw [hserve] at hhole
    exact absurd h.atHole hhole

theorem Stuck.failed {m : Machine} (h : m.Stuck) : m.failed.Stuck :=
  ⟨h.due, h.running, h.atHole⟩

/-- A machine that is stuck remains so, and looks and fails the same at every step. -/
theorem Stuck.afterSteps {m : Machine} (h : m.Stuck) (n : Nat) :
    (m.afterSteps n).Stuck ∧ (m.afterSteps n).visible = m.visible ∧
      (m.afterSteps n).stuckError = m.stuckError := by
  induction n generalizing m with
  | zero => exact ⟨h, rfl, rfl⟩
  | succ n ih =>
      -- the first step leaves a machine that is stuck at the same place
      have hstep : m.step.2 = m.failed := congrArg Prod.snd h.step
      rw [Machine.afterSteps, hstep]
      obtain ⟨hstuck, hvisible, herror⟩ := ih h.failed
      exact ⟨hstuck, hvisible.trans (visible_failed m), herror⟩

/-! ### When a step fails -/

/-- A step fails only at bytes that name no instruction. -/
theorem step_error_cases {m : Machine} {error : Error} (h : m.step.1 = .error error) :
    m.serve.registers.halted = false ∧ m.serve.AtHole ∧ error = m.serve.stuckError ∧
      m.step.2 = m.serve.failed := by
  rcases step_cases m with ⟨-, hstep⟩ | ⟨hhalted, hhole, hstep⟩ | ⟨-, -, hstep⟩
  · rw [hstep] at h
    contradiction
  · rw [hstep] at h
    exact ⟨hhalted, hhole, (Except.error.inj h).symm, congrArg Prod.snd hstep⟩
  · rw [hstep] at h
    contradiction

theorem step_error_of_atHole {m : Machine} (hhalted : m.serve.registers.halted = false)
    (hhole : m.serve.AtHole) : m.step.1 = .error m.serve.stuckError := by
  rcases step_cases m with ⟨htrue, -⟩ | ⟨-, -, hstep⟩ | ⟨-, hnot, -⟩
  · rw [hhalted] at htrue
    contradiction
  · rw [hstep]
    rfl
  · exact absurd hhole hnot

/-- A step fails, after the interrupt that it serves, exactly if the machine is not halted
and has come to an `ED` byte with an undefined opcode behind it.  The error names that
opcode and the address of the `ED` byte; all that can be seen is as the interrupt left
it, and the delay after `EI` is as it was before the step.  With no request pending
nothing at all can be seen to change, however often the step is repeated. -/
theorem step_fails_iff_undefined (m : Machine) :
    (∀ error, m.step.1 = .error error ↔
      m.serve.registers.halted = false ∧
        m.serve.bus.ram.get m.serve.registers.pc = 0xED ∧
        isHole (m.serve.bus.ram.get (m.serve.registers.pc + 1)) = true ∧
        error = .undefinedOpcode (m.serve.bus.ram.get (m.serve.registers.pc + 1))
          m.serve.registers.pc) ∧
    (∀ error, m.step.1 = .error error →
      m.step.2.registers = m.serve.registers ∧ m.step.2.count = m.serve.count ∧
        m.step.2.bus.ram = m.serve.bus.ram ∧ m.step.2.bus.sent = m.serve.bus.sent ∧
        m.step.2.enableDelay = m.enableDelay ∧ m.step.2.visible = m.serve.visible) ∧
    (∀ error, m.step.1 = .error error → m.interruptPending = false → m.nmiPending = false →
      m.step.2.visible = m.visible ∧
        ∀ n, (m.afterSteps n).step.1 = .error error ∧ (m.afterSteps n).visible = m.visible) := by
  have hsecond : m.serve.codeByte 1 = m.serve.bus.ram.get (m.serve.registers.pc + 1) := rfl
  refine ⟨fun error => ⟨fun h => ?_, ?_⟩, fun error h => ?_, fun error h hint hnmi => ?_⟩
  · obtain ⟨hhalted, ⟨hed, hhole⟩, herror, -⟩ := step_error_cases h
    rw [codeByte_zero] at hed
    exact ⟨hhalted, hed, hhole, herror⟩
  · rintro ⟨hhalted, hed, hhole, rfl⟩
    rw [← codeByte_zero] at hed
    exact step_error_of_atHole hhalted ⟨hed, hhole⟩
  · obtain ⟨-, -, -, hafter⟩ := step_error_cases h
    have hvisible : m.step.2.visible = m.serve.visible := by rw [hafter, visible_failed]
    have hsent : m.step.2.bus.sent = m.serve.bus.sent := by
      rw [← Bus.sent_visible, ← Bus.sent_visible m.serve.bus]
      exact congrArg (fun m => m.bus.sent) hvisible
    have hdelay : m.serve.enableDelay = m.enableDelay := by rw [cpu_serve]
    rw [hafter] at hsent hvisible ⊢
    exact ⟨rfl, rfl, rfl, hsent, hdelay, hvisible⟩
  · have hdue : m.due = none := by simp [Cpu.due, hint, hnmi]
    obtain ⟨hhalted, hhole, herror, hafter⟩ := step_error_cases h
    rw [serve_of_none hdue] at hhalted hhole herror hafter
    have hstuck : m.Stuck := ⟨hdue, hhalted, hhole⟩
    refine ⟨by rw [hafter, visible_failed], fun n => ?_⟩
    obtain ⟨hstuckAfter, hvisible, hsame⟩ := hstuck.afterSteps n
    refine ⟨?_, hvisible⟩
    rw [hstuckAfter.step, hsame, herror]

/-- A machine with the undefined instruction `ED 77` in memory. -/
def undefinedExample : Machine := { bus.ram := Store.load (.fill 0 16) 0 [0xED, 0x77] }

theorem step_fails_at_ED77 :
    undefinedExample.step.1 = .error (.undefinedOpcode 0x77 0) ∧
      ∀ n, (undefinedExample.afterSteps n).step.1 = .error (.undefinedOpcode 0x77 0) := by
  obtain ⟨hiff, -, hagain⟩ := step_fails_iff_undefined undefinedExample
  have hfails : undefinedExample.step.1 = .error (.undefinedOpcode 0x77 0) :=
    (hiff _).mpr ⟨rfl, rfl, rfl, rfl⟩
  exact ⟨hfails, fun n => ((hagain _ hfails rfl rfl).2 n).1⟩

end Machine
end Z80Machine
