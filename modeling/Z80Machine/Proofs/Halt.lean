import Mathlib.Logic.Function.Iterate
import Z80Machine.Proofs.Calls
import Z80Machine.Proofs.Failure
import Z80Machine.Proofs.Status

/-!
# The halt state

A machine that is halted stands on a halt instruction (`Parked`), whatever calls have
led it there, so that an interrupt finds the way on behind it.  It stays there while
no interrupt is accepted: its steps succeed and change the refresh counter only
(`idles_acts`).
-/

namespace Z80Machine
namespace Machine

/-! ### On the halt instruction -/

/-- If the machine is halted, it stands on a halt instruction. -/
def Parked (m : Machine) : Prop :=
  m.registers.halted = true → m.bus.ram.get m.registers.pc = 0x76

theorem parked_of_running {m : Machine} (h : m.registers.halted = false) : m.Parked := by
  intro hhalted
  rw [h] at hhalted
  contradiction

/-- The last byte of an encoding that halts, with or without a prefix. -/
theorem last_of_atHalt {m : Machine} (h : m.AtOpcode 0x76) :
    m.bus.ram.get (m.registers.pc +
      BitVec.ofNat 16 (m.fetch Instruction.reader).bytes.length - 1) = 0x76 := by
  rcases h with hfirst | ⟨hindexed, hsecond⟩
  · have hfetch : m.fetch Instruction.reader = ⟨.halt, [m.codeByte 0], m.afterFirst⟩ := by
      apply fetch_single
      rw [hfirst]
      rfl
    have hback : m.registers.pc + BitVec.ofNat 16 1 - 1 = m.registers.pc :=
      BitVec.add_sub_cancel _ _
    rw [hfetch, List.length_singleton, hback, ← codeByte_zero]
    exact hfirst
  · have hlength : (m.fetch Instruction.reader).bytes.length = 2 := by
      obtain ⟨x, hindex⟩ : ∃ x, Encoding.index? (m.codeByte 0) = some x := by
        rcases hindexed with h | h
        · exact ⟨.ix, by rw [h]; rfl⟩
        · exact ⟨.iy, by rw [h]; rfl⟩
      rw [fetch_indexed hindex (by rw [hsecond]; rfl), hsecond]
      rfl
    have hback : m.registers.pc + BitVec.ofNat 16 2 - 1 = m.registers.pc + BitVec.ofNat 16 1 := by
      rw [BitVec.ofNat_add (x := 1) (y := 1), ← BitVec.add_assoc]
      exact BitVec.add_sub_cancel _ _
    rw [hlength, hback]
    exact hsecond

theorem executed_of_halt {m : Machine} (h : m.instruction = .halt) :
    m.executed.registers =
        { m.ready.registers with halted := true, pc := m.ready.registers.pc - 1 } ∧
      m.executed.bus.ram = m.bus.ram := by
  rw [← ram_ready m, executed, h]
  exact ⟨rfl, rfl⟩

/-- A machine that runs is parked after one more instruction. -/
theorem parked_executed {m : Machine} (hrunning : m.registers.halted = false) :
    m.executed.Parked := by
  intro hhalted
  -- nothing but `HALT` can have halted it
  have hhalt : m.instruction = .halt := by
    by_contra hne
    have hkept := halted_execute m.ready hne
    have hready := congrArg Status.halted (status_ready m)
    rw [show (m.ready.execute m.instruction).registers.halted = true from hhalted] at hkept
    exact Bool.noConfusion (hkept.trans (hready.trans hrunning))
  obtain ⟨hregisters, hram⟩ := executed_of_halt hhalt
  rw [hregisters, hram, registers_ready]
  exact last_of_atHalt (instruction_eq_halt_iff.mp hhalt)

theorem parked_serve {m : Machine} (h : m.Parked) : m.serve.Parked := by
  rcases serve_cases m with ⟨address, iff2, hentry, -⟩ | hsame
  · exact parked_of_running (congrArg Registers.halted hentry.registers)
  · rw [hsame]
    exact h

theorem parked_step {m : Machine} (h : m.Parked) : m.step.2.Parked := by
  rcases step_cases m with ⟨-, hstep⟩ | ⟨-, -, hstep⟩ | ⟨hrunning, -, hstep⟩
  · rw [hstep]
    exact parked_serve h
  · rw [hstep]
    exact parked_serve h
  · rw [hstep]
    exact parked_executed hrunning

theorem parked_act {m : Machine} (h : m.Parked) (call : Call) : (m.act call).Parked := by
  cases call with
  | requestInterrupt | requestNmi => exact h
  | step => exact parked_step h
  | interrupt =>
      show m.interrupt.2.Parked
      cases hiff1 : m.registers.iff1 with
      | true =>
          exact parked_of_running
            (congrArg Registers.halted (entersHandler_interrupt hiff1).registers)
      | false =>
          rw [interrupt_of_disabled hiff1]
          exact h
  | nmi => exact parked_of_running (congrArg Registers.halted (entersHandler_nmi m).registers)
  | reset =>
      refine parked_of_running ?_
      show m.config.powerOn.registers.halted = false
      cases m.config.powerOn <;> rfl

theorem parked_acts {m : Machine} (h : m.Parked) (calls : List Call) : (m.acts calls).Parked := by
  induction calls generalizing m with
  | nil => exact h
  | cons call calls ih => exact ih (parked_act h call)

/-! ### Idling -/

/-- Any number of refreshed rows change the refresh counter only. -/
theorem refresh_iterate (s : Registers) (k : Nat) :
    Registers.refresh^[k] s = { s with r := (Registers.refresh^[k] s).r } := by
  induction k with
  | zero => rfl
  | succ k ih =>
      rw [Function.iterate_succ_apply', ih]
      rfl

/-- The calls are steps, with no interrupt that is accepted between them: none is
requested, or only maskable ones while they are disabled. -/
structure Unanswered (m : Machine) (calls : List Call) : Prop where
  kinds : ∀ call ∈ calls, call = .step ∨ call = .requestInterrupt ∨ call = .interrupt
  nmi : m.nmiPending = false
  int : m.registers.iff1 = false ∨
    (m.interruptPending = false ∧ ∀ call ∈ calls, call = .step)

/-- The second machine is the first after it has counted `k` refreshed rows and read memory. -/
structure Idles (m m' : Machine) (k : Nat) : Prop where
  registers : m'.registers = Registers.refresh^[k] m.registers
  visible : m'.bus.visible = m.bus.visible
  count : m'.count = m.count

theorem Idles.trans {m m' m'' : Machine} {k l : Nat} (h : m.Idles m' k) (h' : m'.Idles m'' l) :
    m.Idles m'' (l + k) where
  registers := by rw [h'.registers, h.registers, ← Function.iterate_add_apply]
  visible := h'.visible.trans h.visible
  count := h'.count.trans h.count

section Idles

variable {m m' : Machine} {k : Nat}

theorem Idles.halted_eq (h : m.Idles m' k) : m'.registers.halted = m.registers.halted := by
  rw [h.registers, refresh_iterate]

theorem Idles.pc_eq (h : m.Idles m' k) : m'.registers.pc = m.registers.pc := by
  rw [h.registers, refresh_iterate]

theorem Idles.iff1_eq (h : m.Idles m' k) : m'.registers.iff1 = m.registers.iff1 := by
  rw [h.registers, refresh_iterate]

end Idles

theorem idles_idle (m : Machine) : m.Idles m.idle.2 1 where
  registers := rfl
  visible := by
    have hread : ∀ access ∈ [Access.read m.registers.pc (m.bus.ram.get m.registers.pc)],
        access.isRead = true := by
      intro access hmem
      rw [List.mem_singleton.mp hmem]
      rfl
    exact Bus.visible_append_reads m.bus hread
  count := rfl

/-- A request that is not accepted leaves no trace but its latch. -/
theorem serve_of_unaccepted {m : Machine} (hnmi : m.nmiPending = false)
    (hint : m.registers.iff1 = false ∨ m.interruptPending = false) :
    m.serve = { m with interruptPending := m.serve.interruptPending } := by
  cases hdue : m.due with
  | none => rw [serve_of_none hdue]
  | some request =>
      cases request with
      | nonMaskable => simp [Cpu.due, hnmi] at hdue
      | maskable =>
          rcases hint with hiff1 | hint
          · rw [serve_of_maskable hdue,
              interrupt_of_disabled (m := { m with interruptPending := false }) hiff1]
          · simp [Cpu.due, hnmi, hint] at hdue

/-- A step of a machine that is halted and accepts no interrupt. -/
theorem step_of_halted {m : Machine} (hhalted : m.registers.halted = true)
    (hnmi : m.nmiPending = false)
    (hint : m.registers.iff1 = false ∨ m.interruptPending = false) :
    (∃ report, m.step.1 = .ok report ∧ report.halted = true ∧ report.pc = m.registers.pc) ∧
      m.Idles m.step.2 1 := by
  have hserve := serve_of_unaccepted hnmi hint
  have hidle : m.step = (.ok m.serve.idle.1, m.serve.idle.2) := by
    rcases step_cases m with ⟨-, hstep⟩ | ⟨hrunning, -⟩ | ⟨hrunning, -⟩
    · exact hstep
    · rw [hserve] at hrunning
      exact absurd (hhalted.symm.trans hrunning) Bool.noConfusion
    · rw [hserve] at hrunning
      exact absurd (hhalted.symm.trans hrunning) Bool.noConfusion
  rw [hidle, hserve]
  have hidles := idles_idle { m with interruptPending := m.serve.interruptPending }
  exact ⟨⟨_, rfl, hhalted, rfl⟩, hidles.registers, hidles.visible, hidles.count⟩

section Unanswered

variable {m : Machine} {call : Call} {calls before after : List Call}

/-- The first of some calls that are not answered leaves a halted machine idle. -/
theorem Unanswered.idles_act (h : m.Unanswered (call :: calls))
    (hhalted : m.registers.halted = true) :
    m.Idles (m.act call) (if call = .step then 1 else 0) := by
  rcases h.kinds call List.mem_cons_self with rfl | rfl | rfl
  · exact (step_of_halted hhalted h.nmi (h.int.imp_right And.left)).2
  · exact ⟨rfl, rfl, rfl⟩
  · have hiff1 : m.registers.iff1 = false :=
      h.int.resolve_right fun hsteps =>
        Call.noConfusion (hsteps.2 .interrupt List.mem_cons_self)
    have hsame : m.act .interrupt = m := congrArg Prod.snd (interrupt_of_disabled hiff1)
    rw [hsame]
    exact ⟨rfl, rfl, rfl⟩

/-- The latches after a step with no non-maskable interrupt pending. -/
theorem latches_step (hnmi : m.nmiPending = false) :
    m.step.2.nmiPending = false ∧
      (m.interruptPending = false → m.step.2.interruptPending = false) := by
  rw [cpu_step, cpu_serve]
  dsimp only
  rw [hnmi]
  constructor
  · rfl
  · intro hint
    rw [hint]
    rfl

/-- After the first of some calls that are not answered, the others are not answered. -/
theorem Unanswered.tail (h : m.Unanswered (call :: calls)) (hhalted : m.registers.halted = true) :
    (m.act call).Unanswered calls := by
  have hiff1 := (h.idles_act hhalted).iff1_eq
  refine ⟨?_, ?_, ?_⟩
  · intro later hmem
    exact h.kinds later (List.mem_cons_of_mem _ hmem)
  · rcases h.kinds call List.mem_cons_self with rfl | rfl | rfl
    · exact (latches_step h.nmi).1
    · exact h.nmi
    · show m.interrupt.2.nmiPending = false
      rw [(extends_interrupt m).cpu]
      exact h.nmi
  · rcases h.int with hdisabled | ⟨hint, hsteps⟩
    · exact .inl (hiff1.trans hdisabled)
    · obtain rfl := hsteps call List.mem_cons_self
      refine .inr ⟨(latches_step h.nmi).2 hint, ?_⟩
      intro later hmem
      exact hsteps later (List.mem_cons_of_mem _ hmem)

/-- A machine that is halted idles through the calls that are not answered. -/
theorem Unanswered.idles_acts (h : m.Unanswered (before ++ after))
    (hhalted : m.registers.halted = true) :
    m.Idles (m.acts before) (before.count .step) ∧ (m.acts before).Unanswered after := by
  induction before generalizing m with
  | nil => exact ⟨⟨rfl, rfl, rfl⟩, h⟩
  | cons call before ih =>
      have hfirst := Unanswered.idles_act h hhalted
      obtain ⟨hrest, hafter⟩ := ih (Unanswered.tail h hhalted) (hfirst.halted_eq.trans hhalted)
      refine ⟨?_, hafter⟩
      rw [List.count_cons]
      simp only [beq_iff_eq]
      exact hfirst.trans hrest

end Unanswered

/-- Wherever some calls have led a machine that was not halted, if it is halted now it stands
on a halt instruction.  There it stays while no interrupt is accepted: each step succeeds and
reports the same place, and counts a refreshed row; no other register, no memory, no device
and not the count of instructions changes. -/
theorem halted_stays_parked (m : Machine) (hrunning : m.registers.halted = false)
    (calls : List Call) (hhalted : (m.acts calls).registers.halted = true) :
    (m.acts calls).bus.ram.get (m.acts calls).registers.pc = 0x76 ∧
    ∀ more, (m.acts calls).Unanswered more →
      (∀ before after, more = before ++ .step :: after →
        ∃ report, (m.acts (calls ++ before)).step.1 = .ok report ∧ report.halted = true ∧
          report.pc = (m.acts calls).registers.pc) ∧
      (m.acts (calls ++ more)).registers =
        { (m.acts calls).registers with
          r := (Registers.refresh^[more.count .step] (m.acts calls).registers).r } ∧
      (m.acts (calls ++ more)).bus.ram = (m.acts calls).bus.ram ∧
      (m.acts (calls ++ more)).bus.visible = (m.acts calls).bus.visible ∧
      (m.acts (calls ++ more)).count = (m.acts calls).count := by
  have hparked := parked_acts (parked_of_running hrunning) calls
  constructor
  · exact hparked hhalted
  · intro more hmore
    constructor
    · -- up to each step the machine has idled, so the step finds it halted where it was
      rintro before after rfl
      obtain ⟨hidles, hrest⟩ := hmore.idles_acts hhalted
      have hstill := hidles.halted_eq.trans hhalted
      have hint := hrest.int.imp_right And.left
      obtain ⟨⟨report, hok, hreported, hpc⟩, -⟩ := step_of_halted hstill hrest.nmi hint
      rw [acts_append]
      exact ⟨report, hok, hreported, hpc.trans hidles.pc_eq⟩
    · have hsplit : (m.acts calls).Unanswered (more ++ []) := by rwa [List.append_nil]
      obtain ⟨hidles, -⟩ := hsplit.idles_acts hhalted
      have hram := congrArg Bus.ram hidles.visible
      rw [acts_append, ← refresh_iterate]
      exact ⟨hidles.registers, hram, hidles.visible, hidles.count⟩

/-- A machine with a halt instruction behind a prefix. -/
def haltExample : Machine := { bus.ram := Store.load (.fill 0 16) 0 [0xDD, 0x76] }

theorem halted_behind_prefix :
    haltExample.registers.halted = false ∧ (haltExample.act .step).registers.halted = true ∧
      (haltExample.act .step).Unanswered [.requestInterrupt, .step, .step] ∧
      (haltExample.acts [.step, .requestInterrupt, .step, .step]).registers.pc = 1 ∧
      (haltExample.acts [.step, .requestInterrupt, .step, .step]).registers.r = 4 := by
  have hmore : (haltExample.act .step).Unanswered [.requestInterrupt, .step, .step] :=
    ⟨by decide, rfl, .inl rfl⟩
  obtain ⟨-, hstays⟩ := halted_stays_parked haltExample rfl [.step] rfl
  obtain ⟨-, hregisters, -⟩ := hstays _ hmore
  refine ⟨rfl, rfl, hmore, ?_, ?_⟩
  · exact congrArg Registers.pc hregisters
  · exact congrArg Registers.r hregisters

end Machine
end Z80Machine
