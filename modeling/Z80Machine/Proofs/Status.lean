import Z80Machine.Proofs.Entries
import Z80Machine.Proofs.Entry

/-!
# Interrupt and halt state

Only the instructions made for it change whether the processor can be interrupted and
whether it is halted (`status_execute`).  From this follows what one instruction can do:
nothing but `HALT` halts (`halted_execute`), and nothing but `EI` and `RETI` opens
maskable interrupts that are closed (`closed_execute`).
-/

namespace Z80Machine

/-- The part of the registers that tells how the processor answers to interrupts. -/
structure Status where
  iff1 : Bool
  iff2 : Bool
  im : Byte
  halted : Bool
  deriving DecidableEq

namespace Registers

/-- The interrupt and halt state. -/
def status (s : Registers) : Status := ⟨s.iff1, s.iff2, s.im, s.halted⟩

@[simp] theorem status_write8 (s : Registers) (name : Reg8) (value : Byte) :
    (s.write8 name value).status = s.status := by
  cases name <;> rfl

@[simp] theorem status_writePair (s : Registers) (name : Reg16) (value : Word) :
    (s.writePair name value).status = s.status := by
  cases name <;> rfl

/-- Neither a maskable interrupt is accepted nor will `RETN` open them. -/
structure Closed (s : Registers) : Prop where
  iff1 : s.iff1 = false
  iff2 : s.iff2 = false

theorem Closed.of_status {s t : Registers} (h : s.Closed) (hstatus : t.status = s.status) :
    t.Closed :=
  ⟨(congrArg Status.iff1 hstatus).trans h.iff1, (congrArg Status.iff2 hstatus).trans h.iff2⟩

end Registers

/-- Whether an instruction is made to change the interrupt and halt state. -/
def Instruction.changesStatus : Instruction → Bool
  | .halt | .di | .ei | .im _ | .reti | .retn => true
  | _ => false

namespace Machine

variable (m : Machine)

@[simp] theorem status_setPair (name : Reg16) (value : Word) :
    (m.setPair name value).registers.status = m.registers.status :=
  m.registers.status_writePair name value

@[simp] theorem status_setFlags (f : Flags) :
    (m.setFlags f).registers.status = m.registers.status := rfl

@[simp] theorem status_put (p : Place) (value : Byte) :
    (m.put p value).registers.status = m.registers.status := by
  cases p with
  | register name => exact m.registers.status_write8 name value
  | memory a => rfl

@[simp] theorem status_putBoth (p : Place) (copy : Option Reg8) (value : Byte) :
    (m.putBoth p copy value).registers.status = m.registers.status := by
  cases copy with
  | none => exact status_put m p value
  | some name => exact (Registers.status_write8 _ name value).trans (status_put m p value)

@[simp] theorem status_repeatIf (again : Bool) :
    (m.repeatIf again).registers.status = m.registers.status := by
  cases again <;> rfl

theorem status_block (op : BlockOperation) (dir : Direction) (repeats : Bool) :
    (m.block op dir repeats).registers.status = m.registers.status := by
  cases op <;> exact status_repeatIf _ _

/-- An instruction that is not made for it leaves the interrupt and halt state alone. -/
theorem status_execute {i : Instruction} (hi : i.changesStatus = false) :
    (m.execute i).registers.status = m.registers.status := by
  cases i with
  | ld target source => simp [execute]
  | ldWord target source => simp [execute]
  | pop target => exact status_setPair _ target _
  | exStack target => exact status_setPair _ target _
  | incWord target => exact status_setPair _ target _
  | decWord target => exact status_setPair _ target _
  | addWord target source => exact status_setPair _ target _
  | storeControl target => cases target <;> rfl
  | operate op source =>
      show (m.takeSource source).2.registers.status = m.registers.status
      rw [registers_takeSource]
  | inc target => simp [execute]
  | dec target => simp [execute]
  | shift op target copy => simp [execute]
  | bit n target => simp [execute]
  | res n target copy => simp [execute]
  | set n target copy => simp [execute]
  | jp cond address =>
      show (m.jumpIf cond address).registers.status = _
      unfold jumpIf
      split <;> rfl
  | jr cond d =>
      show (m.jumpRelativeIf cond d).registers.status = _
      unfold jumpRelativeIf
      split <;> rfl
  | djnz d =>
      show (m.countDown d).2.registers.status = _
      unfold countDown
      dsimp only
      split <;> rfl
  | call cond address =>
      show (m.callIf cond address).registers.status = _
      unfold callIf
      split <;> rfl
  | ret cond =>
      show (m.retIf cond).registers.status = _
      unfold retIf
      split <;> rfl
  | inC target =>
      cases target with
      | none => rfl
      | some name => exact Registers.status_write8 _ name _
  | outC source => cases source <;> rfl
  | block op dir repeats => exact status_block m op dir repeats
  | halt | di | ei | im | reti | retn => exact absurd hi Bool.noConfusion
  | _ => rfl

/-- Nothing but `HALT` changes whether the processor is halted. -/
theorem halted_execute {i : Instruction} (hhalt : i ≠ .halt) :
    (m.execute i).registers.halted = m.registers.halted := by
  cases hi : i.changesStatus with
  | false => exact congrArg Status.halted (status_execute m hi)
  | true =>
      cases i with
      | halt => exact absurd rfl hhalt
      | di | ei | im | reti | retn => rfl
      | _ => exact absurd hi Bool.noConfusion

/-- Nothing but `EI` and `RETI` opens maskable interrupts that are closed. -/
theorem closed_execute {m : Machine} {i : Instruction} (hei : i ≠ .ei) (hreti : i ≠ .reti)
    (h : m.registers.Closed) : (m.execute i).registers.Closed := by
  cases hi : i.changesStatus with
  | false => exact h.of_status (status_execute m hi)
  | true =>
      cases i with
      | ei => exact absurd rfl hei
      | reti => exact absurd rfl hreti
      | di => exact ⟨rfl, rfl⟩
      | retn => exact ⟨h.iff2, h.iff2⟩
      | halt | im => exact ⟨h.iff1, h.iff2⟩
      | _ => exact absurd hi Bool.noConfusion

/-! ### Whole steps -/

/-- Serving a request enters a handler, or uses up a request that nothing comes of. -/
theorem serve_cases :
    (∃ address iff2, m.EntersHandler m.serve address iff2 ∧
      (iff2 = false ∨ iff2 = m.registers.iff2)) ∨
      m.serve = { m with interruptPending := m.serve.interruptPending } := by
  cases hdue : m.due with
  | none =>
      rw [serve_of_none hdue]
      exact .inr rfl
  | some request =>
      cases request with
      | nonMaskable =>
          have hentry := entersHandler_nmi { m with nmiPending := false }
          rw [serve_of_nonMaskable hdue]
          exact .inl ⟨_, _, ⟨hentry.registers, hentry.ram⟩, .inr rfl⟩
      | maskable =>
          rw [serve_of_maskable hdue]
          cases hiff1 : m.registers.iff1 with
          | true =>
              have hentry := entersHandler_interrupt (m := { m with interruptPending := false })
                hiff1
              exact .inl ⟨_, _, ⟨hentry.registers, hentry.ram⟩, .inl rfl⟩
          | false =>
              rw [interrupt_of_disabled (m := { m with interruptPending := false }) hiff1]
              exact .inr rfl

theorem status_ready : m.ready.registers.status = m.registers.status := by
  rw [registers_ready]
  rfl

end Machine
end Z80Machine
