import Z80Machine.Proofs.Calls
import Z80Machine.Proofs.Entry
import Z80Machine.Proofs.SameLine
import Z80Machine.Proofs.Targets

/-!
# The counter of refreshed rows

R counts the opcodes that the processor fetches, and the interrupts that it enters, in its low
seven bits.  Each call counts a number of rows that can be told beforehand from the machine that
it finds (`callRows`), and over a whole run these numbers add up as long as R is not loaded
(`refresh_counts_rows`).  Operands, and the byte that a prefix looks at, are not counted.
-/

namespace Z80Machine

/-- The second value of R is the first after it has counted `n` rows. -/
structure Counts (r r' : Byte) (n : Nat) : Prop where
  /-- Bit 7 takes no part. -/
  msb : r'.msb = r.msb
  low : r'.toNat % 128 = (r.toNat + n) % 128

theorem Counts.refl (r : Byte) : Counts r r 0 := ⟨rfl, rfl⟩

theorem Counts.trans {r r' r'' : Byte} {n k : Nat} (h : Counts r r' n) (h' : Counts r' r'' k) :
    Counts r r'' (n + k) := by
  refine ⟨h'.msb.trans h.msb, ?_⟩
  have hfirst := h.low
  have hsecond := h'.low
  omega

theorem counts_refresh (s : Registers) : Counts s.r s.refresh.r 1 := by
  have hbyte : ∀ r : Byte, (BitVec.ofBool r.msb ++ (r.extractLsb' 0 7 + 1) : Byte).msb = r.msb ∧
      (BitVec.ofBool r.msb ++ (r.extractLsb' 0 7 + 1) : Byte).toNat % 128 =
        (r.toNat + 1) % 128 := by
    decide
  obtain ⟨hmsb, hlow⟩ := hbyte s.r
  exact ⟨hmsb, hlow⟩

namespace Reader

variable {α : Type} {P : α → Prop}

/-- Operands are not counted. -/
theorem OperandsOnly.r_fetch {r : Reader α} (h : r.OperandsOnly P) (m : Machine) :
    (m.fetch r).machine.registers.r = m.registers.r := by
  induction r generalizing m with
  | done value => rfl
  | operand next ih => exact ih _ (h _) m.fetchByte.2
  | opcode next | peek next => exact h.elim

end Reader

namespace Encoding

theorem afterFirst_eq_mainTable {op : Byte} (hindex : index? op = none) (hcb : op ≠ 0xCB)
    (hed : op ≠ 0xED) : afterFirst op = mainTable .hl op := by
  obtain ⟨hdd, hfd⟩ := index?_eq_none_iff.mp hindex
  unfold afterFirst
  rw [if_neg hcb, if_neg hed, if_neg hdd, if_neg hfd]

/-- Behind `ED` there are operands only. -/
theorem r_fetch_extended (op : Byte) (m : Machine) :
    (m.fetch (extended op)).machine.registers.r = m.registers.r := by
  by_cases hstoreR : op = 0x4F
  · rw [hstoreR]
    rfl
  · exact (extended_listed hstoreR).r_fetch m

end Encoding

namespace Machine

open Encoding

variable (m : Machine)

/-! ### Rows -/

/-- The rows that the instruction at the program counter counts: one for each opcode in it. -/
def opcodeRows : Nat :=
  if m.codeByte 0 = 0xCB ∨ m.codeByte 0 = 0xED then 2
  else if (m.codeByte 0 = 0xDD ∨ m.codeByte 0 = 0xFD) ∧ overridesPrefix (m.codeByte 1) = false
  then 2
  else 1

/-- The rows that a step counts for the interrupt that it enters. -/
def entryRows : Nat :=
  match m.due with
  | some .nonMaskable => 1
  | some .maskable => m.interrupt.1.toNat
  | none => 0

/-- The rows that a step counts. -/
def stepRows : Nat :=
  match m.step.1 with
  | .error _ => m.entryRows
  | .ok _ => m.entryRows + if m.serve.registers.halted then 1 else m.serve.opcodeRows

/-- The rows that a call counts. -/
def callRows : Call → Nat
  | .step => m.stepRows
  | .interrupt => m.interrupt.1.toNat
  | .nmi => 1
  | .requestInterrupt | .requestNmi | .reset => 0

/-- The rows that some calls count. -/
def rows (m : Machine) : List Call → Nat
  | [] => 0
  | call :: calls => m.callRows call + (m.act call).rows calls

/-- Whether the next step loads R from the accumulator. -/
def ExecutesStoreR : Prop := m.serve.registers.halted = false ∧ m.serve.AtStoreR

/-- No call of the run resets the machine, and no step loads R. -/
def NeverSetsR (m : Machine) : List Call → Prop
  | [] => True
  | call :: calls =>
      call ≠ .reset ∧ (call = .step → ¬m.ExecutesStoreR) ∧ (m.act call).NeverSetsR calls

/-! ### Reading an instruction -/

theorem r_ready : m.ready.registers.r = (m.fetch Instruction.reader).machine.registers.r := rfl

theorem counts_refresh_twice (s : Registers) : Counts s.r s.refresh.refresh.r 2 :=
  (counts_refresh s).trans (counts_refresh s.refresh)

variable {m}

theorem counts_ready_of_index {x : Index} (hindex : index? (m.codeByte 0) = some x) :
    Counts m.registers.r m.ready.registers.r m.opcodeRows := by
  have hfirst := eq_of_index?_eq_some hindex
  have hplain : ¬(m.codeByte 0 = 0xCB ∨ m.codeByte 0 = 0xED) := by
    rcases hfirst with h | h <;> rw [h] <;> decide
  unfold opcodeRows
  rw [if_neg hplain, r_ready]
  cases hover : overridesPrefix (m.codeByte 1) with
  | true =>
      rw [fetch_overridden hindex hover, if_neg (by simp)]
      exact counts_refresh m.registers
  | false =>
      have hrest := (afterIndex_listed x (m.codeByte 1)).r_fetch m.afterIndex
      rw [fetch_indexed hindex hover, if_pos ⟨hfirst, rfl⟩]
      dsimp only
      rw [hrest]
      exact counts_refresh_twice m.registers

theorem counts_ready_of_index_none (hindex : index? (m.codeByte 0) = none) :
    Counts m.registers.r m.ready.registers.r m.opcodeRows := by
  have hnot := not_or.mpr (index?_eq_none_iff.mp hindex)
  unfold opcodeRows
  rw [r_ready, fetch_reader]
  dsimp only
  by_cases hcb : m.codeByte 0 = 0xCB
  · rw [if_pos (.inl hcb), hcb]
    exact counts_refresh_twice m.registers
  · by_cases hed : m.codeByte 0 = 0xED
    · have hrest := r_fetch_extended (m.codeByte 1) m.afterFirst.refresh.fetchByte.2
      rw [if_pos (.inr hed), hed]
      show Counts m.registers.r
        (m.afterFirst.refresh.fetchByte.2.fetch (extended (m.codeByte 1))).machine.registers.r 2
      rw [hrest]
      exact counts_refresh_twice m.registers
    · have hrest := (mainTable_listed .hl (m.codeByte 0)).r_fetch m.afterFirst
      rw [if_neg (not_or.mpr ⟨hcb, hed⟩), if_neg fun h => hnot h.1,
        afterFirst_eq_mainTable hindex hcb hed, hrest]
      exact counts_refresh m.registers

theorem counts_ready (m : Machine) : Counts m.registers.r m.ready.registers.r m.opcodeRows := by
  cases hindex : index? (m.codeByte 0) with
  | some x => exact counts_ready_of_index hindex
  | none => exact counts_ready_of_index_none hindex

/-- Carrying out an instruction counts nothing more. -/
theorem counts_executed (hstore : m.instruction ≠ .storeControl .r) :
    Counts m.registers.r m.executed.registers.r m.opcodeRows := by
  have hq : Part.r ∉ m.instruction.parts :=
    fun hmem => hstore (Instruction.mayWrite_of_mem_parts (within_instruction m) .r hmem)
  have hkept := congrArg (·.r) (part_execute m.ready m.instruction hq)
  have hsame : m.executed.registers.r = m.ready.registers.r := hkept
  rw [hsame]
  exact counts_ready m

/-! ### Calls -/

theorem EntersHandler.counts {m' : Machine} {address : Word} {iff2 : Bool}
    (h : m.EntersHandler m' address iff2) : Counts m.registers.r m'.registers.r 1 := by
  rw [h.registers]
  exact counts_refresh m.registers

theorem counts_interrupt (m : Machine) :
    Counts m.registers.r m.interrupt.2.registers.r m.interrupt.1.toNat := by
  cases hiff1 : m.registers.iff1 with
  | true =>
      have haccepted : m.interrupt.1 = true := by rw [interrupt_of_enabled hiff1]
      rw [haccepted]
      exact (entersHandler_interrupt hiff1).counts
  | false =>
      rw [interrupt_of_disabled hiff1]
      exact .refl _

theorem counts_serve (m : Machine) : Counts m.registers.r m.serve.registers.r m.entryRows := by
  unfold entryRows
  cases hdue : m.due with
  | none =>
      rw [serve_of_none hdue]
      exact .refl _
  | some request =>
      cases request with
      | nonMaskable =>
          rw [serve_of_nonMaskable hdue]
          exact (entersHandler_nmi { m with nmiPending := false }).counts
      | maskable =>
          -- whether it is accepted does not depend on the request
          have haccepted : { m with interruptPending := false }.interrupt.1 = m.interrupt.1 := by
            unfold interrupt
            cases m.registers.iff1 <;> rfl
          rw [serve_of_maskable hdue, ← haccepted]
          exact counts_interrupt { m with interruptPending := false }

theorem counts_step (hstore : ¬m.ExecutesStoreR) :
    Counts m.registers.r m.step.2.registers.r m.stepRows := by
  have hentry := counts_serve m
  unfold stepRows
  rcases step_cases m with ⟨hhalted, hstep⟩ | ⟨hrunning, -, hstep⟩ | ⟨hrunning, -, hstep⟩
  · rw [hstep, hhalted]
    exact hentry.trans (counts_refresh m.serve.registers)
  · rw [hstep]
    exact hentry
  · rw [hstep, hrunning]
    refine hentry.trans (counts_executed fun hi => ?_)
    exact hstore ⟨hrunning, atStoreR_of_instruction_eq hi⟩

theorem counts_act {call : Call} (hreset : call ≠ .reset)
    (hstore : call = .step → ¬m.ExecutesStoreR) :
    Counts m.registers.r (m.act call).registers.r (m.callRows call) := by
  cases call with
  | requestInterrupt | requestNmi => exact .refl _
  | step => exact counts_step (hstore rfl)
  | interrupt => exact counts_interrupt m
  | nmi => exact (entersHandler_nmi m).counts
  | reset => contradiction

theorem counts_acts {calls : List Call} (hcalls : m.NeverSetsR calls) :
    Counts m.registers.r (m.acts calls).registers.r (m.rows calls) := by
  induction calls generalizing m with
  | nil => exact .refl _
  | cons call calls ih =>
      obtain ⟨hreset, hstore, hrest⟩ := hcalls
      exact (counts_act hreset hstore).trans (ih hrest)

/-- The instruction that loads R into the accumulator finds its own two opcodes counted. -/
theorem loaded_r (h : m.Executes (.loadControl .r)) :
    m.step.2.registers.a = m.serve.registers.refresh.refresh.r ∧
      m.step.2.registers.r = m.step.2.registers.a := by
  obtain ⟨hrunning, hinstruction⟩ := h
  have hhole : ¬m.serve.AtHole := by
    rintro ⟨-, hhole⟩
    rw [(atLoadR_of_instruction_eq hinstruction).2] at hhole
    contradiction
  rw [step_of_not_atHole hrunning hhole, executed, hinstruction]
  have hready := r_ready_of_instruction_eq hinstruction
  exact ⟨hready, rfl⟩

/-- Over any run of steps, requests and interrupts in which `LD R,A` is not carried out, R counts
in its low seven bits one row for each interrupt that is entered and for each step of a halted
machine, and the opcodes of each instruction that is carried out, while bit 7 stays.  A step that
fails counts no more than the interrupt that it has entered.  If the next step carries out
`LD A,R`, the accumulator receives R with the two opcodes of that instruction counted. -/
theorem refresh_counts_rows (m : Machine) (calls : List Call) (hcalls : m.NeverSetsR calls) :
    (m.acts calls).registers.r.msb = m.registers.r.msb ∧
    (m.acts calls).registers.r.toNat % 128 = (m.registers.r.toNat + m.rows calls) % 128 ∧
    ((m.acts calls).Executes (.loadControl .r) →
      (m.acts calls).step.2.registers.a = (m.acts calls).serve.registers.refresh.refresh.r ∧
        (m.acts calls).step.2.registers.r = (m.acts calls).step.2.registers.a) := by
  have hcounts := counts_acts hcalls
  exact ⟨hcounts.msb, hcounts.low, loaded_r⟩

instance (m : Machine) : Decidable m.ExecutesStoreR := inferInstanceAs (Decidable (_ ∧ _ ∧ _))

/-- A machine with interrupts enabled and R about to run over, and a program of `BIT 0,(IX+5)`, a
dropped prefix and `LD A,R`. -/
def refreshExample : Machine where
  registers := { pc := 0x4000, sp := 0x8000, r := 0xFE, iff1 := true }
  bus.ram := (Store.load (.fill 0 16) 0x4000 [0xDD, 0xCB, 0x05, 0x46, 0xDD, 0xED, 0x5F]).load 0x0038
    [0xED, 0x45]

/-- A run with an interrupt, whose handler returns in the step that enters it. -/
def refreshCalls : List Call := [.step, .requestInterrupt, .step, .step]

theorem refresh_runs_over :
    refreshExample.NeverSetsR refreshCalls ∧ refreshExample.rows refreshCalls = 6 ∧
      (refreshExample.acts refreshCalls).registers.r.msb = true ∧
      (refreshExample.acts refreshCalls).registers.r.toNat % 128 = 4 ∧
      (refreshExample.acts refreshCalls).step.2.registers.a = 0x86 := by
  have hcalls : refreshExample.NeverSetsR refreshCalls := by
    refine ⟨nofun, fun _ => ?_, nofun, nofun, nofun, fun _ => ?_, nofun, fun _ => ?_, trivial⟩
    all_goals decide
  have hrows : refreshExample.rows refreshCalls = 6 := by decide
  obtain ⟨hmsb, hlow, hloaded⟩ := refresh_counts_rows refreshExample refreshCalls hcalls
  obtain ⟨ha, -⟩ := hloaded (by decide)
  rw [hrows] at hlow
  exact ⟨hcalls, hrows, hmsb, hlow, ha.trans (by decide)⟩

end Machine
end Z80Machine
