import Z80Machine.Proofs.Targets

/-!
# The writers of the special registers

Between interrupts each special register changes only by the instructions that are made to
write it (`special_registers_have_own_writers`).  The stack pointer, which most programs set
once, then moves by two with each word that is pushed or popped (`stackMove`).
-/

namespace Z80Machine

namespace Encoding

theorem index?_eq_ix_iff {op : Byte} : index? op = some .ix ↔ op = 0xDD := by
  revert op
  decide

theorem index?_eq_iy_iff {op : Byte} : index? op = some .iy ↔ op = 0xFD := by
  revert op
  decide

end Encoding

namespace Machine

open Encoding

variable (m : Machine)

/-- How far an instruction moves the stack pointer with the words that it pushes and pops. -/
def stackMove : Instruction → Word
  | .push _ | .rst _ => -2
  | .pop _ | .reti | .retn => 2
  | .call cond _ => if m.meets cond then -2 else 0
  | .ret cond => if m.meets cond then 2 else 0
  | _ => 0

/-! ### The stack pointer -/

theorem sp_push (value : Word) : (m.push value).registers.sp = m.registers.sp + -2 := by
  rw [registers_push, Word.sub_one_sub_one]
  exact BitVec.sub_eq_add_neg _ _

theorem sp_pop : m.pop.2.registers.sp = m.registers.sp + 2 := by
  rw [registers_pop]
  exact BitVec.add_assoc _ _ _

theorem sp_execute {p : Pointer} {i : Instruction} (hwithin : i.within p = true)
    (hi : i.usesStack = true) :
    (m.execute i).registers.sp = m.registers.sp + m.stackMove i := by
  cases i with
  | push source => exact sp_push m _
  | rst vector => exact sp_push m m.registers.pc
  | pop target =>
      -- a popped word goes to another register
      have htarget : Part.sp ∉ target.parts := by
        rcases p with _ | _ | _ <;> cases target <;>
          simp [Instruction.within, Pointer.register, Index.register, Reg16.parts] at hwithin ⊢
      have hpop := m.pop.2.registers.part_writePair target m.pop.1 htarget
      exact (congrArg (·.sp) hpop).trans (sp_pop m)
  | reti | retn => exact sp_pop m
  | call cond address =>
      show (m.callIf cond address).registers.sp = m.registers.sp + if m.meets cond then -2 else 0
      unfold callIf
      split
      · exact sp_push m m.registers.pc
      · exact (BitVec.add_zero _).symm
  | ret cond =>
      show (m.retIf cond).registers.sp = m.registers.sp + if m.meets cond then 2 else 0
      unfold retIf
      split
      · exact sp_pop m
      · exact (BitVec.add_zero _).symm
  | _ => contradiction

theorem stackMove_ready (i : Instruction) : m.ready.stackMove i = m.stackMove i := by
  have hmeets (cond : Option Condition) : m.ready.meets cond = m.meets cond := by
    unfold meets
    rw [registers_ready]
  unfold stackMove
  simp only [hmeets]

/-! ### Steps that carry out an instruction -/

variable {m}

theorem step_of_executes {i : Instruction} (hdue : m.due = none) (h : m.Executes i)
    (hi : ∀ opcode, i ≠ .undefined opcode) :
    m.registers.halted = false ∧ m.instruction = i ∧ m.step.2 = m.executed := by
  obtain ⟨hrunning, hinstruction⟩ := h
  rw [serve_of_none hdue] at hrunning hinstruction
  have hhole : ¬m.AtHole := by
    intro hhole
    rcases value_fetch_cases m with ⟨-, -, hvalue⟩ | ⟨hnot, -⟩ | ⟨hnot, -⟩
    · exact hi _ (hinstruction.symm.trans hvalue)
    · exact hnot hhole
    · exact hnot hhole
  exact ⟨hrunning, hinstruction, by rw [step_of_due_none hdue hrunning hhole]⟩

theorem sp_step {i : Instruction} (hdue : m.due = none) (h : m.Executes i)
    (hi : i.usesStack = true) : m.step.2.registers.sp = m.registers.sp + m.stackMove i := by
  obtain ⟨-, rfl, hstep⟩ := step_of_executes hdue h (by rintro opcode rfl; contradiction)
  have hsp := sp_execute m.ready (within_instruction m) hi
  rw [stackMove_ready, registers_ready] at hsp
  rw [hstep]
  exact hsp

theorem index?_of_pointer_eq {x : Index} (h : m.pointer = .index x) :
    index? (m.codeByte 0) = some x := by
  unfold pointer at h
  split at h
  · next y hy => rw [hy, Pointer.index.inj h]
  · contradiction

/-- An index register changes by what stands behind its own prefix, if that is not dropped. -/
theorem index_step (x : Index) (hdue : m.due = none)
    (hne : m.step.2.registers.readPair x.register ≠ m.registers.readPair x.register) :
    m.registers.halted = false ∧ index? (m.codeByte 0) = some x ∧
      overridesPrefix (m.codeByte 1) = false := by
  obtain ⟨i, hi, hmem, hpointer⟩ := exists_writer_of_ne hdue (q := (Pointer.index x).part)
    (·.readPair x.register) (fun s => by cases x <;> rfl) (by cases x <;> exact Part.noConfusion)
    (by cases x <;> exact Part.noConfusion) hne
  have hindex : index? (m.codeByte 0) = some x := by
    apply index?_of_pointer_eq
    cases x <;> exact hpointer
  obtain ⟨hrunning, hinstruction, -⟩ := step_of_executes hdue hi (by
    rintro opcode rfl
    contradiction)
  refine ⟨hrunning, hindex, ?_⟩
  by_contra hover
  rw [Bool.not_eq_false] at hover
  rw [instruction, fetch_overridden hindex hover] at hinstruction
  subst hinstruction
  contradiction

/-- With no request pending, and whether the step succeeds or fails, each special register
changes only by the instructions that are made to write it.  The interrupt mode stays within
its three values.  The stack pointer changes only if it is loaded or counted, or by an
instruction that pushes or pops, which moves it by two if it is carried out.  Only the halt
instruction changes the halt state, and it does not end it. -/
theorem special_registers_have_own_writers (m : Machine) (hint : m.interruptPending = false)
    (hnmi : m.nmiPending = false) :
    (m.step.2.registers.shadow.a ≠ m.registers.shadow.a ∨
      m.step.2.registers.shadow.f ≠ m.registers.shadow.f → m.Executes .exAf) ∧
    (m.step.2.registers.shadow.bc ≠ m.registers.shadow.bc ∨
      m.step.2.registers.shadow.de ≠ m.registers.shadow.de ∨
      m.step.2.registers.shadow.hl ≠ m.registers.shadow.hl → m.Executes .exx) ∧
    (m.step.2.registers.i ≠ m.registers.i → m.Executes (.storeControl .i)) ∧
    (m.step.2.registers.im ≠ m.registers.im → ∃ mode, m.Executes (.im mode)) ∧
    (m.registers.im.toNat ≤ 2 → m.step.2.registers.im.toNat ≤ 2) ∧
    (m.step.2.registers.ix ≠ m.registers.ix →
      m.registers.halted = false ∧ m.codeByte 0 = 0xDD ∧ overridesPrefix (m.codeByte 1) = false) ∧
    (m.step.2.registers.iy ≠ m.registers.iy →
      m.registers.halted = false ∧ m.codeByte 0 = 0xFD ∧ overridesPrefix (m.codeByte 1) = false) ∧
    (m.step.2.registers.sp ≠ m.registers.sp →
      ∃ i, m.Executes i ∧ (i.setsStackPointer = true ∨ i.usesStack = true)) ∧
    (∀ i, m.Executes i → i.usesStack = true →
      m.step.2.registers.sp = m.registers.sp + m.stackMove i) ∧
    (m.step.2.registers.halted ≠ m.registers.halted →
      m.registers.halted = false ∧ m.step.2.registers.halted = true ∧ m.Executes .halt) := by
  have hdue := due_eq_none hint hnmi
  have him : m.step.2.registers.im ≠ m.registers.im → ∃ mode, m.Executes (.im mode) := by
    intro hne
    obtain ⟨i, hi, -, mode, rfl⟩ := exists_writer_of_ne hdue (q := .im) (·.im) (fun s => rfl)
      Part.noConfusion Part.noConfusion hne
    exact ⟨mode, hi⟩
  refine ⟨?_, ?_, ?_, him, ?_, ?_, ?_, ?_, fun i => sp_step hdue, ?_⟩
  · intro hne
    have hpair : (m.step.2.registers.shadow.a, m.step.2.registers.shadow.f) ≠
        (m.registers.shadow.a, m.registers.shadow.f) := by
      rwa [ne_eq, Prod.mk.injEq, not_and_or]
    obtain ⟨i, hi, -, rfl⟩ := exists_writer_of_ne hdue (q := .shadowAf)
      (fun s => (s.shadow.a, s.shadow.f)) (fun s => rfl) Part.noConfusion Part.noConfusion hpair
    exact hi
  · intro hne
    have hpairs : (m.step.2.registers.shadow.bc, m.step.2.registers.shadow.de,
        m.step.2.registers.shadow.hl) ≠
        (m.registers.shadow.bc, m.registers.shadow.de, m.registers.shadow.hl) := by
      rwa [ne_eq, Prod.mk.injEq, Prod.mk.injEq, not_and_or, not_and_or]
    obtain ⟨i, hi, -, rfl⟩ := exists_writer_of_ne hdue (q := .shadowPairs)
      (fun s => (s.shadow.bc, s.shadow.de, s.shadow.hl)) (fun s => rfl) Part.noConfusion
      Part.noConfusion hpairs
    exact hi
  · intro hne
    obtain ⟨i, hi, -, rfl⟩ := exists_writer_of_ne hdue (q := .i) (·.i) (fun s => rfl)
      Part.noConfusion Part.noConfusion hne
    exact hi
  · intro hmode
    by_cases hsame : m.step.2.registers.im = m.registers.im
    · rwa [hsame]
    · obtain ⟨mode, hi⟩ := him hsame
      obtain ⟨-, hinstruction, hstep⟩ := step_of_executes hdue hi fun opcode =>
        Instruction.noConfusion
      have hthree : ∀ mode : Fin 3, (BitVec.ofNat 8 mode.val).toNat ≤ 2 := by decide
      rw [hstep, executed, hinstruction]
      exact hthree mode
  · intro hne
    rw [← index?_eq_ix_iff]
    exact index_step .ix hdue hne
  · intro hne
    rw [← index?_eq_iy_iff]
    exact index_step .iy hdue hne
  · intro hne
    obtain ⟨i, hi, -, hwrites⟩ := exists_writer_of_ne hdue (q := .sp) (·.sp) (fun s => rfl)
      Part.noConfusion Part.noConfusion hne
    exact ⟨i, hi, Bool.or_eq_true_iff.mp hwrites⟩
  · intro hne
    obtain ⟨i, hi, -, rfl⟩ := exists_writer_of_ne hdue (q := .halted) (·.halted) (fun s => rfl)
      Part.noConfusion Part.noConfusion hne
    obtain ⟨hrunning, hinstruction, hstep⟩ := step_of_executes hdue hi fun opcode =>
      Instruction.noConfusion
    refine ⟨hrunning, ?_, hi⟩
    rw [hstep, executed, hinstruction]
    rfl

/-- Pops IX from the end of memory. -/
def popIndexExample : Machine where
  registers := { pc := 0x8000, sp := 0xFFFF }
  bus.ram := (Store.load (.fill 0 16) 0x8000 [0xDD, 0xE1]).load 0xFFFF [0x34, 0x12]

theorem pop_index_moves_sp :
    popIndexExample.step.2.registers.ix = 0x1234 ∧ popIndexExample.codeByte 0 = 0xDD ∧
      popIndexExample.step.2.registers.sp = 0x0001 := by
  obtain ⟨-, -, -, -, -, hix, -, -, hsp, -⟩ :=
    special_registers_have_own_writers popIndexExample rfl rfl
  have hchanged : popIndexExample.step.2.registers.ix ≠ popIndexExample.registers.ix := by decide
  obtain ⟨-, hfirst, -⟩ := hix hchanged
  have hmoved := hsp (.pop .ix) (by decide) rfl
  exact ⟨by decide, hfirst, hmoved.trans (by decide)⟩

end Machine
end Z80Machine
