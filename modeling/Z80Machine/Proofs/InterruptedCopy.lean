import Mathlib.Data.List.Basic
import Z80Machine.Proofs.BlockCopy
import Z80Machine.Proofs.Calls
import Z80Machine.Proofs.Entry

/-!
# A block copy under interrupts

While a block is copied, a maskable interrupt may be asked for at any time.  With a
handler that is nothing but `EI` and `RETI` the copy ends as it would have without
the interrupts.  The machine is always in one of two phases (`Phase`): between two
bytes it is like the machine that is never interrupted, and in the handler it is like
it but for the way back on the stack.  The delay after `EI` rules out a third phase,
in which the handler itself would be interrupted and the stack would grow.
-/

namespace Z80Machine

namespace Machine

/-- The addresses of the two bytes at the program counter. -/
def codeAddresses (m : Machine) : List Word := [m.registers.pc, m.registers.pc + 1]

/-- The addresses of a handler of three bytes. -/
def handlerAddresses : List Word := [0x0038, 0x0039, 0x003A]

/-- A machine that is about to copy a block of `BC` bytes, with interrupts enabled and
`EI` and `RETI` as their handler.  Instruction, handler and stack do not overlap, the
copy writes into none of them, and it does not read the stack. -/
structure CopiesUnderInterrupts (m : Machine) (dir : Direction) : Prop where
  running : m.registers.halted = false
  atCopy : m.AtBlock .load dir
  count : m.registers.bc ≠ 0
  mode : m.registers.im = 0 ∨ m.registers.im = 1
  iff1 : m.registers.iff1 = true
  iff2 : m.registers.iff2 = true
  nmi : m.nmiPending = false
  delay : m.enableDelay = false
  handler : m.bus.ram.dump 0x0038 3 = [0xFB, 0xED, 0x4D]
  code_handler : m.codeAddresses.Disjoint handlerAddresses
  code_stack : m.codeAddresses.Disjoint m.stackAddresses
  handler_stack : handlerAddresses.Disjoint m.stackAddresses
  target : ∀ i < m.registers.bc.toNat,
    dir.moved m.registers.de i ∉ m.codeAddresses ++ handlerAddresses ++ m.stackAddresses
  source : ∀ i < m.registers.bc.toNat, dir.moved m.registers.hl i ∉ m.stackAddresses

/-- The machine that is not asked for a maskable interrupt. -/
def quiet (m : Machine) : Machine := { m with interruptPending := false }

/-- The machine that has taken some steps of the copy and was never interrupted. -/
def undisturbed (m : Machine) (k : Nat) : Machine := m.quiet.afterSteps k

/-! ### The copy that is never interrupted -/

/-- A machine that has copied `k` bytes of the block that `m` was about to copy. -/
structure HasCopied (m : Machine) (dir : Direction) (k : Nat) (y : Machine) : Prop where
  registers : y.registers =
    { m.registers with
      toBank := y.registers.toBank
      pc := if k < m.registers.bc.toNat then m.registers.pc else m.registers.pc + 2
      r := y.registers.r }
  bc : y.registers.bc = m.registers.bc - BitVec.ofNat 16 k
  de : y.registers.de = dir.moved m.registers.de k
  hl : y.registers.hl = dir.moved m.registers.hl k
  ram : ∀ a ∈ m.codeAddresses ++ handlerAddresses, y.bus.ram.get a = m.bus.ram.get a
  int : y.interruptPending = false
  nmi : y.nmiPending = false

variable {m : Machine} {dir : Direction}

theorem toNat_bc_pos (h : m.CopiesUnderInterrupts dir) : 0 < m.registers.bc.toNat := by
  apply Nat.pos_of_ne_zero
  intro hzero
  exact h.count (BitVec.eq_of_toNat_eq hzero)

theorem hasCopied_zero (h : m.CopiesUnderInterrupts dir) : m.HasCopied dir 0 m.quiet where
  registers := by
    rw [if_pos (toNat_bc_pos h)]
    rfl
  bc := (BitVec.sub_zero _).symm
  de := (dir.moved_zero _).symm
  hl := (dir.moved_zero _).symm
  ram := fun _ _ => rfl
  int := rfl
  nmi := h.nmi

section HasCopied

variable {y : Machine} {k : Nat}

theorem HasCopied.pc_eq (hy : m.HasCopied dir k y) (hk : k < m.registers.bc.toNat) :
    y.registers.pc = m.registers.pc := by
  rw [hy.registers, if_pos hk]

theorem HasCopied.sp_eq (hy : m.HasCopied dir k y) : y.registers.sp = m.registers.sp := by
  rw [hy.registers]

theorem HasCopied.halted_eq (hy : m.HasCopied dir k y) :
    y.registers.halted = m.registers.halted := by
  rw [hy.registers]

theorem HasCopied.iff1_eq (hy : m.HasCopied dir k y) : y.registers.iff1 = m.registers.iff1 := by
  rw [hy.registers]

theorem HasCopied.iff2_eq (hy : m.HasCopied dir k y) : y.registers.iff2 = m.registers.iff2 := by
  rw [hy.registers]

theorem HasCopied.atCopy (hy : m.HasCopied dir k y) (h : m.CopiesUnderInterrupts dir)
    (hk : k < m.registers.bc.toNat) : y.AtBlock .load dir := by
  unfold AtBlock codeByte
  rw [hy.pc_eq hk, hy.ram _ (by simp [codeAddresses]), hy.ram _ (by simp [codeAddresses])]
  exact h.atCopy

/-- The copy is at its last byte when all others have been copied. -/
theorem HasCopied.bc_eq_one_iff (hy : m.HasCopied dir k y) (hk : k < m.registers.bc.toNat) :
    y.registers.bc = 1 ↔ k + 1 = m.registers.bc.toNat := by
  have hsmall := m.registers.bc.isLt
  have hlt : k < 2 ^ 16 := by omega
  have hmod : (BitVec.ofNat 16 k).toNat = k := by
    rw [BitVec.toNat_ofNat, Nat.mod_eq_of_lt hlt]
  have hle : BitVec.ofNat 16 k ≤ m.registers.bc := by
    rw [BitVec.le_def, hmod]
    omega
  have hbc : y.registers.bc.toNat = m.registers.bc.toNat - k := by
    rw [hy.bc, BitVec.toNat_sub_of_le hle, hmod]
  have hone : (1 : Word).toNat = 1 := rfl
  rw [← BitVec.toNat_inj, hbc]
  omega

/-- The last byte moves the program counter behind the instruction. -/
theorem HasCopied.pc_copied (hy : m.HasCopied dir k y) (hk : k < m.registers.bc.toNat)
    (value : Byte) :
    (y.registers.copied dir value).pc =
      if k + 1 < m.registers.bc.toNat then m.registers.pc else m.registers.pc + 2 := by
  have hone := hy.bc_eq_one_iff hk
  rw [Registers.pc_copied, hy.pc_eq hk]
  by_cases hlast : k + 1 = m.registers.bc.toNat
  · rw [if_pos (hone.mpr hlast), if_neg (by omega)]
  · rw [if_neg (hlast ∘ hone.mp), if_pos (by omega)]

/-- A step copies one more byte. -/
theorem HasCopied.step_eq (hy : m.HasCopied dir k y) (h : m.CopiesUnderInterrupts dir)
    (hk : k < m.registers.bc.toNat) : y.step.2 = y.executed := by
  have hdue : y.due = none := by simp [Cpu.due, hy.int, hy.nmi]
  have hrunning : y.registers.halted = false := hy.halted_eq.trans h.running
  have hat := hy.atCopy h hk
  rw [step_of_due_none hdue hrunning (not_atHole_of_atBlock hat)]

theorem HasCopied.succ (hy : m.HasCopied dir k y) (h : m.CopiesUnderInterrupts dir)
    (hk : k < m.registers.bc.toNat) : m.HasCopied dir (k + 1) y.executed := by
  have hat := hy.atCopy h hk
  have hregisters := registers_executed_copy hat
  generalize y.bus.ram.get y.registers.hl = value at hregisters
  constructor
  · -- beyond bank, program counter and refresh counter the copy keeps what `hy` keeps
    rw [← hy.pc_copied hk value, congrArg Registers.toBank hregisters]
    refine hregisters.trans ?_
    exact congrArg (fun s : Registers =>
      { s with
        toBank := (y.registers.copied dir value).toBank
        pc := (y.registers.copied dir value).pc
        r := y.executed.registers.r }) hy.registers
  · rw [hregisters]
    show (y.registers.copied dir value).bc = _
    rw [Registers.bc_copied, hy.bc, BitVec.sub_sub, BitVec.ofNat_add]
    rfl
  · rw [hregisters]
    show (y.registers.copied dir value).de = _
    rw [Registers.de_copied, hy.de, Direction.next_moved]
  · rw [hregisters]
    show (y.registers.copied dir value).hl = _
    rw [Registers.hl_copied, hy.hl, Direction.next_moved]
  · -- the byte goes to no address of the instruction or of the handler
    intro a ha
    have hne : a ≠ y.registers.de := by
      rintro rfl
      rw [hy.de] at ha
      exact h.target k hk (List.mem_append_left _ ha)
    rw [ram_executed_copy hat, Cells.get_set_of_ne _ _ hne]
    exact hy.ram a ha
  · rw [cpu_executed]
    exact hy.int
  · rw [cpu_executed]
    exact hy.nmi

end HasCopied

theorem hasCopied_undisturbed (h : m.CopiesUnderInterrupts dir) {k : Nat}
    (hk : k ≤ m.registers.bc.toNat) : m.HasCopied dir k (m.undisturbed k) := by
  induction k with
  | zero => exact hasCopied_zero h
  | succ k ih =>
      have hy := ih (Nat.le_of_succ_le hk)
      rw [undisturbed, afterSteps_succ]
      show m.HasCopied dir (k + 1) (m.undisturbed k).step.2
      rw [hy.step_eq h hk]
      exact hy.succ h hk

/-- The next step of the copy that is never interrupted. -/
theorem undisturbed_succ (h : m.CopiesUnderInterrupts dir) {k : Nat}
    (hk : k < m.registers.bc.toNat) : m.undisturbed (k + 1) = (m.undisturbed k).executed := by
  have hy := hasCopied_undisturbed h (Nat.le_of_lt hk)
  rw [← hy.step_eq h hk, undisturbed, afterSteps_succ]
  rfl

/-! ### The two phases -/

/-- The second machine is like the first but for the stack of `m`, the refresh counter and
the given program counter, stack pointer and delay. -/
structure Resembles (m y x : Machine) (pc sp : Word) (delayed : Bool) : Prop where
  registers : x.registers = { y.registers with pc := pc, sp := sp, r := x.registers.r }
  ram : ∀ a ∉ m.stackAddresses, x.bus.ram.get a = y.bus.ram.get a
  nmi : x.nmiPending = false
  delay : x.enableDelay = delayed

/-- Where an interrupted copy can be when `k` bytes have been copied: between two bytes, or in
the handler with the way back to the copy on the stack. -/
inductive Phase (m x : Machine) : Nat → Prop
  | between {k : Nat} (hk : k ≤ m.registers.bc.toNat)
      (h : m.Resembles (m.undisturbed k) x (m.undisturbed k).registers.pc m.registers.sp false) :
      Phase m x k
  | handling {k : Nat} (hk : k < m.registers.bc.toNat)
      (h : m.Resembles (m.undisturbed k) x 0x0039 (m.registers.sp - 2) true)
      (high : x.bus.ram.get (m.registers.sp - 1) = m.registers.pc.high)
      (low : x.bus.ram.get (m.registers.sp - 2) = m.registers.pc.low) : Phase m x k

/-- The copy has come to its end: the program counter stands behind it and the stack is as
it was. -/
def CopyDone (m x : Machine) : Prop :=
  x.registers.pc = m.registers.pc + 2 ∧ x.registers.sp = m.registers.sp

instance (m x : Machine) : Decidable (m.CopyDone x) := inferInstanceAs (Decidable (_ ∧ _))

theorem phase_zero (h : m.CopiesUnderInterrupts dir) : m.Phase m 0 := by
  refine .between (Nat.zero_le _) ⟨?_, fun _ _ => rfl, h.nmi, h.delay⟩
  rfl

theorem phase_requestInterrupt {x : Machine} {k : Nat} (hx : m.Phase x k) :
    m.Phase x.requestInterrupt k := by
  cases hx with
  | between hk h => exact .between hk ⟨h.registers, h.ram, h.nmi, h.delay⟩
  | handling hk h high low => exact .handling hk ⟨h.registers, h.ram, h.nmi, h.delay⟩ high low

section Memory

variable {k : Nat} {s : Store}

/-- Memory that is as it would be without interrupts holds the copy. -/
theorem code_of_agrees (h : m.CopiesUnderInterrupts dir) (hk : k ≤ m.registers.bc.toNat)
    (hs : ∀ a ∉ m.stackAddresses, s.get a = (m.undisturbed k).bus.ram.get a) :
    s.get m.registers.pc = 0xED ∧ s.get (m.registers.pc + 1) = BlockOperation.load.opcode dir := by
  have hy := hasCopied_undisturbed h hk
  have hcode (a : Word) (ha : a ∈ m.codeAddresses) : s.get a = m.bus.ram.get a := by
    rw [hs a (h.code_stack ha), hy.ram a (List.mem_append_left _ ha)]
  obtain ⟨hed, hop⟩ := h.atCopy
  rw [codeByte_zero] at hed
  exact ⟨(hcode _ (by simp [codeAddresses])).trans hed,
    (hcode _ (by simp [codeAddresses])).trans hop⟩

/-- Memory that is as it would be without interrupts holds the handler. -/
theorem handler_of_agrees (h : m.CopiesUnderInterrupts dir) (hk : k ≤ m.registers.bc.toNat)
    (hs : ∀ a ∉ m.stackAddresses, s.get a = (m.undisturbed k).bus.ram.get a) :
    s.get 0x0038 = 0xFB ∧ s.get 0x0039 = 0xED ∧ s.get 0x003A = 0x4D := by
  have hy := hasCopied_undisturbed h hk
  have hcode (a : Word) (ha : a ∈ handlerAddresses) : s.get a = m.bus.ram.get a := by
    rw [hs a (h.handler_stack ha), hy.ram a (List.mem_append_right _ ha)]
  have hbytes : [m.bus.ram.get 0x0038, m.bus.ram.get 0x0039, m.bus.ram.get 0x003A] =
      [0xFB, 0xED, 0x4D] := h.handler
  simp only [List.cons.injEq, and_true] at hbytes
  rwa [hcode _ (by simp [handlerAddresses]), hcode _ (by simp [handlerAddresses]),
    hcode _ (by simp [handlerAddresses])]

end Memory

/-! ### One step -/

variable {x : Machine} {k : Nat}

/-- A machine between two bytes is about to copy. -/
theorem atCopy_of_resembles (h : m.CopiesUnderInterrupts dir) (hk : k < m.registers.bc.toNat)
    (hx : m.Resembles (m.undisturbed k) x (m.undisturbed k).registers.pc m.registers.sp false) :
    x.AtBlock .load dir := by
  have hy := hasCopied_undisturbed h (Nat.le_of_lt hk)
  have hcode := code_of_agrees h (Nat.le_of_lt hk) hx.ram
  have hpc : x.registers.pc = m.registers.pc := by rw [hx.registers, hy.pc_eq hk]
  unfold AtBlock codeByte
  rw [hpc, BitVec.add_zero]
  exact hcode

/-- Between two bytes, with no interrupt asked for, the next byte is copied. -/
theorem phase_copy (h : m.CopiesUnderInterrupts dir) (hk : k < m.registers.bc.toNat)
    (hx : m.Resembles (m.undisturbed k) x (m.undisturbed k).registers.pc m.registers.sp false)
    (hint : x.interruptPending = false) :
    x.Executes (.block .load dir true) ∧ (∃ report, x.step.1 = .ok report) ∧
      m.Phase x.step.2 (k + 1) := by
  have hy := hasCopied_undisturbed h (Nat.le_of_lt hk)
  have hnext := hasCopied_undisturbed h hk
  have hat := atCopy_of_resembles h hk hx
  have hdue : x.due = none := by simp [Cpu.due, hint, hx.nmi]
  have hrunning : x.registers.halted = false := by
    rw [hx.registers]
    exact hy.halted_eq.trans h.running
  have hexecutes := executes_of_due_none hdue hrunning
  rw [instruction_of_atBlock hat] at hexecutes
  -- both machines copy the same byte, as the stack is no source
  have hsource : (m.undisturbed k).registers.hl ∉ m.stackAddresses := by
    rw [hy.hl]
    exact h.source k hk
  have hregisters := hx.registers
  rw [← hy.sp_eq] at hregisters
  obtain ⟨hregistersNext, hramNext⟩ :=
    executed_copy_agrees (hy.atCopy h hk) hat hregisters hx.ram hsource
  rw [← undisturbed_succ h hk] at hregistersNext hramNext
  rw [step_of_due_none hdue hrunning (not_atHole_of_atBlock hat)]
  refine ⟨hexecutes, ⟨_, rfl⟩, .between hk ⟨?_, hramNext, ?_, ?_⟩⟩
  · rw [← hnext.sp_eq]
    exact hregistersNext
  · rw [cpu_executed]
    exact hx.nmi
  · apply enableDelay_executed_of_ne
    rw [instruction_of_atBlock hat]
    exact Instruction.noConfusion

/-- Between two bytes, serving an interrupt leads to the start of the handler. -/
theorem entersHandler_of_resembles (h : m.CopiesUnderInterrupts dir)
    (hk : k < m.registers.bc.toNat)
    (hx : m.Resembles (m.undisturbed k) x (m.undisturbed k).registers.pc m.registers.sp false)
    (hint : x.interruptPending = true) : x.EntersHandler x.serve 0x0038 false := by
  have hy := hasCopied_undisturbed h (Nat.le_of_lt hk)
  have hiff1 : x.registers.iff1 = true := by
    rw [hx.registers]
    exact hy.iff1_eq.trans h.iff1
  have hmode : (x.registers.im == 2) = false := by
    rw [hx.registers, hy.registers]
    rcases h.mode with hzero | hone
    · rw [hzero]
      rfl
    · rw [hone]
      rfl
  have hhandler (s : Store) : x.quiet.handlerIn s = 0x0038 := by
    unfold handlerIn
    show (if x.registers.im == 2 then _ else _) = _
    rw [hmode]
    rfl
  have hserve : x.serve = x.quiet.interrupt.2 :=
    serve_of_maskable (by simp [Cpu.due, hint, hx.nmi, hx.delay])
  have hentry := entersHandler_interrupt (m := x.quiet) hiff1
  rw [hhandler] at hentry
  rw [hserve]
  exact ⟨hentry.registers, hentry.ram⟩

/-- At the start of the handler memory is as it would be without interrupts, but for the way
back on the stack. -/
theorem ram_serve_of_resembles (h : m.CopiesUnderInterrupts dir) (hk : k < m.registers.bc.toNat)
    (hx : m.Resembles (m.undisturbed k) x (m.undisturbed k).registers.pc m.registers.sp false)
    (hint : x.interruptPending = true) :
    (∀ a ∉ m.stackAddresses, x.serve.bus.ram.get a = (m.undisturbed k).bus.ram.get a) ∧
      x.serve.bus.ram.get (m.registers.sp - 1) = m.registers.pc.high ∧
      x.serve.bus.ram.get (m.registers.sp - 2) = m.registers.pc.low := by
  have hy := hasCopied_undisturbed h (Nat.le_of_lt hk)
  have hresumption : x.resumption = m.registers.pc := by
    have hrunning : ¬x.registers.halted = true := by
      rw [hx.registers]
      dsimp only
      rw [hy.halted_eq, h.running]
      exact Bool.noConfusion
    rw [resumption, if_neg hrunning, hx.registers]
    exact hy.pc_eq hk
  have hsp : x.registers.sp = m.registers.sp := by rw [hx.registers]
  have hstack : x.stackAddresses = m.stackAddresses := by rw [stackAddresses, hsp, stackAddresses]
  rw [(entersHandler_of_resembles h hk hx hint).ram, ← hresumption, ← hsp]
  refine ⟨fun a ha => ?_, high_returnPushed x, low_returnPushed x⟩
  rw [get_returnPushed x a (by rwa [hstack])]
  exact hx.ram a ha

/-- Between two bytes, an interrupt that has been asked for leads into the handler. -/
theorem phase_enter (h : m.CopiesUnderInterrupts dir) (hk : k < m.registers.bc.toNat)
    (hx : m.Resembles (m.undisturbed k) x (m.undisturbed k).registers.pc m.registers.sp false)
    (hint : x.interruptPending = true) :
    x.Executes .ei ∧ (∃ report, x.step.1 = .ok report) ∧ m.Phase x.step.2 k := by
  have hy := hasCopied_undisturbed h (Nat.le_of_lt hk)
  have hentry := (entersHandler_of_resembles h hk hx hint).registers
  obtain ⟨hram, hhigh, hlow⟩ := ram_serve_of_resembles h hk hx hint
  have hnmi : x.serve.nmiPending = false := by
    rw [cpu_serve]
    dsimp only
    rw [hx.nmi, Bool.false_and]
  have hrunning : x.serve.registers.halted = false := by rw [hentry]
  generalize hs : x.serve = s at hentry hram hhigh hlow hnmi hrunning
  -- the first instruction of the handler is `EI`
  have hei : s.codeByte 0 = 0xFB := by
    rw [codeByte_zero, hentry]
    exact (handler_of_agrees h (Nat.le_of_lt hk) hram).1
  have hinstruction : s.instruction = .ei := by rw [instruction, fetch_of_ei hei]
  have hhole : ¬s.AtHole := by
    rintro ⟨hed, -⟩
    rw [hei] at hed
    contradiction
  have hstep := step_of_not_atHole (m := x) (by rwa [hs]) (by rwa [hs])
  have hexecutes : x.Executes .ei := ⟨by rwa [hs], by rwa [hs]⟩
  rw [hs] at hstep
  rw [hstep]
  refine ⟨hexecutes, ⟨_, rfl⟩, .handling hk ⟨?_, fun a ha => ?_, ?_, ?_⟩ ?_ ?_⟩
  · -- `EI` opens what the interrupt has closed
    have hiff1 : (m.undisturbed k).registers.iff1 = true := hy.iff1_eq.trans h.iff1
    have hiff2 : (m.undisturbed k).registers.iff2 = true := hy.iff2_eq.trans h.iff2
    have hhalted : (m.undisturbed k).registers.halted = false := hy.halted_eq.trans h.running
    refine (registers_executed_ei hei).trans ?_
    rw [hentry, hx.registers]
    dsimp only
    rw [hiff1, hiff2, hhalted]
    rfl
  · rw [ram_executed_ei hei]
    exact hram a ha
  · rw [cpu_executed]
    exact hnmi
  · rw [executed_of_ei hinstruction]
  · rw [ram_executed_ei hei]
    exact hhigh
  · rw [ram_executed_ei hei]
    exact hlow

/-- In the handler no interrupt is served, and the machine goes back to the copy. -/
theorem phase_return (h : m.CopiesUnderInterrupts dir) (hk : k < m.registers.bc.toNat)
    (hx : m.Resembles (m.undisturbed k) x 0x0039 (m.registers.sp - 2) true)
    (hhigh : x.bus.ram.get (m.registers.sp - 1) = m.registers.pc.high)
    (hlow : x.bus.ram.get (m.registers.sp - 2) = m.registers.pc.low) :
    x.Executes .reti ∧ (∃ report, x.step.1 = .ok report) ∧ m.Phase x.step.2 k := by
  have hy := hasCopied_undisturbed h (Nat.le_of_lt hk)
  -- the delay after `EI` keeps a further request waiting
  have hdue : x.due = none := by simp [Cpu.due, hx.nmi, hx.delay]
  have hrunning : x.registers.halted = false := by
    rw [hx.registers]
    exact hy.halted_eq.trans h.running
  have hat : x.AtReti := by
    obtain ⟨-, hed, hop⟩ := handler_of_agrees h (Nat.le_of_lt hk) hx.ram
    unfold AtReti codeByte
    rw [hx.registers]
    exact ⟨hed, hop⟩
  have hexecutes := executes_of_due_none hdue hrunning
  rw [instruction_of_atReti hat] at hexecutes
  rw [step_of_due_none hdue hrunning (not_atHole_of_atReti hat)]
  refine ⟨hexecutes, ⟨_, rfl⟩, .between (Nat.le_of_lt hk) ⟨?_, fun a ha => ?_, ?_, ?_⟩⟩
  · have hpc : (m.undisturbed k).registers.pc = m.registers.pc := hy.pc_eq hk
    have hiff1 : (m.undisturbed k).registers.iff1 = true := hy.iff1_eq.trans h.iff1
    refine (registers_executed_reti hat).trans ?_
    rw [hx.registers]
    dsimp only
    rw [Word.sub_two_add_one, hhigh, hlow, Word.ofBytes_high_low, BitVec.sub_add_cancel, hpc,
      hiff1]
  · rw [ram_executed_reti hat]
    exact hx.ram a ha
  · rw [cpu_executed]
    exact hx.nmi
  · apply enableDelay_executed_of_ne
    rw [instruction_of_atReti hat]
    exact Instruction.noConfusion

/-! ### Runs -/

/-- How often a run carries out the copy instruction. -/
def moves (m : Machine) (dir : Direction) : List Call → Nat
  | [] => 0
  | call :: calls =>
      (if call = .step ∧ m.Executes (.block .load dir true) then 1 else 0) +
        (m.act call).moves dir calls

theorem moves_concat (m : Machine) (dir : Direction) (calls : List Call) (call : Call) :
    m.moves dir (calls ++ [call]) =
      m.moves dir calls +
        if call = .step ∧ (m.acts calls).Executes (.block .load dir true) then 1 else 0 := by
  induction calls generalizing m with
  | nil =>
      simp only [List.nil_append, moves, Nat.zero_add, Nat.add_zero]
      rfl
  | cons first calls ih =>
      rw [List.cons_append, moves, moves, ih, acts_cons, Nat.add_assoc]

/-- The copy is done when all bytes have been copied, and not before. -/
theorem eq_of_phase_of_copyDone (h : m.CopiesUnderInterrupts dir) (hx : m.Phase x k)
    (hdone : m.CopyDone x) : k = m.registers.bc.toNat := by
  obtain ⟨hpc, hsp⟩ := hdone
  cases hx with
  | between hk hx =>
      have hy := hasCopied_undisturbed h hk
      by_contra hne
      rw [hx.registers, hy.registers, if_pos (by omega)] at hpc
      exact Word.ne_add_two _ hpc
  | handling hk hx =>
      rw [hx.registers] at hsp
      exact absurd hsp.symm (Word.ne_sub_two _)

theorem phase_step (h : m.CopiesUnderInterrupts dir) (hx : m.Phase x k) (hdone : ¬m.CopyDone x) :
    (∃ report, x.step.1 = .ok report) ∧
      m.Phase x.step.2 (k + if x.Executes (.block .load dir true) then 1 else 0) := by
  have hother {i : Instruction} (hi : x.Executes i) (hne : i ≠ .block .load dir true) :
      ¬x.Executes (.block .load dir true) := fun hcopy => hne (hi.2.symm.trans hcopy.2)
  cases hx with
  | between hk hx =>
      -- a machine between two bytes that has copied all of them is done
      have hlt : k < m.registers.bc.toNat := by
        refine Nat.lt_of_le_of_ne hk fun heq => hdone ?_
        have hy := hasCopied_undisturbed h hk
        unfold CopyDone
        rw [hx.registers, hy.registers, if_neg (by omega)]
        exact ⟨rfl, rfl⟩
      cases hint : x.interruptPending with
      | false =>
          obtain ⟨hcopies, hok, hnext⟩ := phase_copy h hlt hx hint
          rw [if_pos hcopies]
          exact ⟨hok, hnext⟩
      | true =>
          obtain ⟨henters, hok, hnext⟩ := phase_enter h hlt hx hint
          rw [if_neg (hother henters Instruction.noConfusion)]
          exact ⟨hok, hnext⟩
  | handling hk hx high low =>
      obtain ⟨hreturns, hok, hnext⟩ := phase_return h hk hx high low
      rw [if_neg (hother hreturns Instruction.noConfusion)]
      exact ⟨hok, hnext⟩

/-- A run that asks for interrupts and steps, and does not go on after the copy is done, is
always in one of the two phases. -/
theorem phase_acts (h : m.CopiesUnderInterrupts dir) {calls : List Call}
    (hcalls : ∀ call ∈ calls, call = .requestInterrupt ∨ call = .step)
    (hdone : ∀ before call after, calls = before ++ call :: after → ¬m.CopyDone (m.acts before)) :
    m.Phase (m.acts calls) (m.moves dir calls) := by
  induction calls using List.reverseRecOn with
  | nil => exact phase_zero h
  | append_singleton calls call ih =>
      have hphase := ih (fun call hmem => hcalls call (List.mem_append_left _ hmem))
        (fun before call' after hsplit => hdone before call' (after ++ [call]) (by simp [hsplit]))
      rw [acts_concat, moves_concat]
      rcases hcalls call (by simp) with rfl | rfl
      · rw [if_neg fun hstep => Call.noConfusion hstep.1]
        exact phase_requestInterrupt hphase
      · have hnext := (phase_step h hphase (hdone calls .step [] rfl)).2
        simp only [true_and]
        exact hnext

theorem sp_of_phase (hx : m.Phase x k) :
    x.registers.sp = m.registers.sp ∨ x.registers.sp = m.registers.sp - 2 := by
  cases hx with
  | between hk hx =>
      rw [hx.registers]
      exact .inl rfl
  | handling hk hx =>
      rw [hx.registers]
      exact .inr rfl

/-- Without interrupts the copy is done after as many steps as there are bytes. -/
theorem copyDone_undisturbed (h : m.CopiesUnderInterrupts dir) (hk : k ≤ m.registers.bc.toNat) :
    m.CopyDone (m.undisturbed k) ↔ k = m.registers.bc.toNat := by
  have hy := hasCopied_undisturbed h hk
  unfold CopyDone
  rw [hy.registers]
  by_cases hlast : k = m.registers.bc.toNat
  · rw [if_neg (by omega)]
    exact iff_of_true ⟨rfl, rfl⟩ hlast
  · rw [if_pos (by omega)]
    exact iff_of_false (fun hdone => Word.ne_add_two _ hdone.1) hlast

/-- Interrupting a block copy cannot be seen.  However requests for interrupts and steps
follow each other until the copy is done, no step fails, the stack holds at most the way
back to the copy, as many bytes are moved as there are, and the machine ends like one that
is never interrupted, but for the refresh counter and the two bytes below the stack. -/
theorem interrupted_copy (h : m.CopiesUnderInterrupts dir) (calls : List Call)
    (hcalls : ∀ call ∈ calls, call = .requestInterrupt ∨ call = .step)
    (hdone : ∀ before call after, calls = before ++ call :: after → ¬m.CopyDone (m.acts before)) :
    (∀ before after, calls = before ++ .step :: after →
      ∃ report, (m.acts before).step.1 = .ok report) ∧
    (∀ before after, calls = before ++ after →
      (m.acts before).registers.sp = m.registers.sp ∨
        (m.acts before).registers.sp = m.registers.sp - 2) ∧
    (m.CopyDone (m.acts calls) →
      m.moves dir calls = m.registers.bc.toNat ∧
        (∀ k ≤ m.registers.bc.toNat,
          m.CopyDone (m.undisturbed k) ↔ k = m.registers.bc.toNat) ∧
        (m.acts calls).registers =
          { (m.undisturbed m.registers.bc.toNat).registers with
            r := (m.acts calls).registers.r } ∧
        ∀ a ∉ m.stackAddresses,
          (m.acts calls).bus.ram.get a =
            (m.undisturbed m.registers.bc.toNat).bus.ram.get a) := by
  -- every beginning of the run is such a run itself
  have hphase (before after : List Call) (hsplit : calls = before ++ after) :
      m.Phase (m.acts before) (m.moves dir before) := by
    refine phase_acts h (fun call hmem => hcalls call (by simp [hsplit, hmem])) ?_
    intro start call rest heq
    exact hdone start call (rest ++ after) (by simp [hsplit, heq])
  refine ⟨fun before after hsplit => ?_, fun before after hsplit => ?_, fun hend => ?_⟩
  · exact (phase_step h (hphase before _ hsplit) (hdone before .step after hsplit)).1
  · exact sp_of_phase (hphase before after hsplit)
  · have hlast := hphase calls [] (List.append_nil calls).symm
    have hmoves := eq_of_phase_of_copyDone h hlast hend
    rw [hmoves] at hlast
    have hy := hasCopied_undisturbed h (Nat.le_refl _)
    cases hlast with
    | between _ hx =>
        have hregisters := hx.registers
        rw [← hy.sp_eq] at hregisters
        exact ⟨hmoves, fun k hk => copyDone_undisturbed h hk, hregisters, hx.ram⟩
    | handling hlt =>
        -- nothing is left to copy, so no handler was entered on the way to it
        exact absurd hlt (Nat.lt_irrefl _)

/-- A machine that is about to copy two bytes. -/
def copyExample : Machine where
  registers :=
    { d := 0xA0, h := 0x90, c := 2, sp := 0xFFF0, pc := 0x8000
      iff1 := true, iff2 := true, im := 1 }
  bus :=
    { ram := ((Store.load (.fill 0 16) 0x8000 [0xED, 0xB0]).load 0x0038 [0xFB, 0xED, 0x4D]).load
        0x9000 [0x12, 0x34] }

theorem copiesUnderInterrupts_example : copyExample.CopiesUnderInterrupts .up := by
  have hcode : copyExample.codeAddresses = [0x8000, 0x8001] := rfl
  have hstack : copyExample.stackAddresses = [0xFFEF, 0xFFEE] := rfl
  constructor
  case code_handler =>
    rw [hcode]
    simp [handlerAddresses]
  case code_stack =>
    rw [hcode, hstack]
    simp
  case handler_stack =>
    rw [hstack]
    simp [handlerAddresses]
  case target => decide
  case source => decide
  case count => decide
  case mode => exact .inr rfl
  case atCopy => exact ⟨rfl, rfl⟩
  all_goals rfl

/-- A run with a request between the two bytes. -/
def copySchedule : List Call := [.step, .requestInterrupt, .step, .step, .step]

theorem interrupted_copy_between_bytes :
    copyExample.moves .up copySchedule = 2 ∧
      ∀ a ∉ copyExample.stackAddresses,
        (copyExample.acts copySchedule).bus.ram.get a =
          (copyExample.undisturbed 2).bus.ram.get a := by
  have hdone : ∀ k < 5, ¬copyExample.CopyDone (copyExample.acts (copySchedule.take k)) := by
    decide
  have hunfinished (before : List Call) (call : Call) (after : List Call)
      (hsplit : copySchedule = before ++ call :: after) :
      ¬copyExample.CopyDone (copyExample.acts before) := by
    have hlength : 5 = before.length + (after.length + 1) := by
      rw [← List.length_cons (a := call), ← List.length_append, ← hsplit]
      rfl
    have hprefix := hdone before.length (by omega)
    rwa [hsplit, List.take_left] at hprefix
  obtain ⟨-, -, hend⟩ :=
    interrupted_copy copiesUnderInterrupts_example copySchedule (by decide) hunfinished
  obtain ⟨hmoves, -, -, hram⟩ := hend (by decide)
  exact ⟨hmoves, hram⟩

end Machine
end Z80Machine
