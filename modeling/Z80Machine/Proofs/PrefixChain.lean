import Z80Machine.Proofs.BlockPass
import Z80Machine.Proofs.Failure
import Z80Machine.Proofs.Prefixes

/-!
# Chains of prefixes

A `DD` or `FD` byte before another one, or before `ED`, takes a step of its own that does nothing
but go on by one byte (`skips_step`).  In a chain of them each step goes on to the next
(`skips_afterSteps`), however long the chain is, and only the last prefix has a part in the
instruction at its end (`last_prefix_counts`).
-/

namespace Z80Machine
namespace Machine

open Encoding

/-- The second machine is the first when it has gone on by `k` bytes in `k` steps, which have done
nothing else. -/
structure Skips (m m' : Machine) (k : Nat) : Prop where
  cpu : m'.toCpu =
    { m.toCpu with
      registers :=
        { m.registers with
          pc := m.registers.pc + BitVec.ofNat 16 k
          r := (Registers.refresh^[k] m.registers).r }
      enableDelay := m.enableDelay && decide (k = 0)
      count := m.count + BitVec.ofNat 64 k }
  visible : m'.bus.visible = m.bus.visible

theorem Skips.refl (m : Machine) : m.Skips m 0 where
  cpu := by simp
  visible := rfl

variable {m m' m'' : Machine} {k l : Nat}

theorem Skips.trans (h : m.Skips m' k) (h' : m'.Skips m'' l) : m.Skips m'' (k + l) where
  cpu := by
    have hsame : m'.registers.r = (Registers.refresh^[k] m.registers).r := by rw [h.cpu]
    rw [h'.cpu, r_refresh_iterate_of_eq hsame, h.cpu]
    dsimp only
    rw [delay_add, BitVec.ofNat_add, BitVec.ofNat_add, BitVec.add_assoc, BitVec.add_assoc]
  visible := h'.visible.trans h.visible

/-- Memory seen from the bytes that come after those that have been skipped. -/
theorem Skips.codeByte_eq (h : m.Skips m' k) (n : Nat) : m'.codeByte n = m.codeByte (k + n) := by
  apply codeByte_of_pc
  · rw [h.cpu]
  · have hram := congrArg Bus.ram h.visible
    exact hram

theorem Skips.halted_eq (h : m.Skips m' k) : m'.registers.halted = m.registers.halted := by
  rw [h.cpu]

/-- No request comes up while bytes are skipped. -/
theorem Skips.requests_eq (h : m.Skips m' k) :
    m'.interruptPending = m.interruptPending ∧ m'.nmiPending = m.nmiPending := by
  rw [h.cpu]
  exact ⟨rfl, rfl⟩

/-- A byte that is a prefix, before one that deprives it of its effect. -/
def Overridden (m : Machine) (k : Nat) : Prop :=
  (index? (m.codeByte k)).isSome = true ∧ overridesPrefix (m.codeByte (k + 1)) = true

theorem overridesPrefix_of_index {op : Byte} (h : (index? op).isSome = true) :
    overridesPrefix op = true := by
  revert op
  decide

theorem overridesPrefix_of_index_none {op : Byte} (h : index? op = none) (hed : op ≠ 0xED) :
    overridesPrefix op = false := by
  revert op
  decide

/-! ### One step -/

/-- What a prefix without effect leaves behind. -/
theorem executed_of_overridden (h : m.Overridden 0) :
    m.executed = { m.afterLook with enableDelay := false, count := m.count + 1 } := by
  obtain ⟨x, hindex⟩ := Option.isSome_iff_exists.mp h.1
  have hfetch := fetch_overridden hindex h.2
  rw [executed, instruction, ready, hfetch]
  rfl

/-- Looking behind a prefix is not seen from outside. -/
theorem visible_afterLook (m : Machine) : m.afterLook.bus.visible = m.bus.visible := by
  have hreads : ∀ access ∈ [Access.read (m.registers.pc + 1) (m.bus.ram.get (m.registers.pc + 1)),
      .read m.registers.pc (m.bus.ram.get m.registers.pc)], access.isRead = true := by
    intro access hmem
    rcases List.mem_pair.mp hmem with rfl | rfl <;> rfl
  exact m.bus.visible_append_reads hreads

/-- A prefix without effect takes a step of its own. -/
theorem skips_step (hrunning : m.registers.halted = false) (hint : m.interruptPending = false)
    (hnmi : m.nmiPending = false) (h : m.Overridden 0) : m.Succeeds ∧ m.Skips m.step.2 1 := by
  obtain ⟨x, hindex⟩ := Option.isSome_iff_exists.mp h.1
  obtain ⟨hsucceeds, hstep⟩ := succeeds_of_due_none (due_eq_none hint hnmi) hrunning
    (not_atHole_of_index hindex)
  refine ⟨hsucceeds, ?_, ?_⟩
  · rw [hstep, executed_of_overridden h]
    have hdelay : (m.enableDelay && decide (1 = 0)) = false := Bool.and_false _
    rw [hdelay]
    rfl
  · rw [hstep, executed_of_overridden h]
    exact visible_afterLook m

/-! ### The chain -/

/-- As long as the bytes are prefixes without effect, each step goes on by one of them. -/
theorem skips_afterSteps (hrunning : m.registers.halted = false)
    (hint : m.interruptPending = false) (hnmi : m.nmiPending = false) {n : Nat}
    (hchain : ∀ k < n, m.Overridden k) :
    m.Skips (m.afterSteps n) n ∧
      ∀ k < n, (m.afterSteps k).Succeeds ∧ (m.afterSteps k).Skips (m.afterSteps (k + 1)) 1 := by
  induction n with
  | zero =>
      refine ⟨.refl m, ?_⟩
      intro k hk
      omega
  | succ n ih =>
      obtain ⟨hskips, hsteps⟩ := ih fun k hk => hchain k (Nat.lt_succ_of_lt hk)
      have hlast : (m.afterSteps n).Overridden 0 := by
        unfold Overridden
        rw [hskips.codeByte_eq, hskips.codeByte_eq]
        exact hchain n (Nat.lt_succ_self n)
      obtain ⟨hsameInt, hsameNmi⟩ := hskips.requests_eq
      have hstep := skips_step (hskips.halted_eq.trans hrunning) (hsameInt.trans hint)
        (hsameNmi.trans hnmi) hlast
      rw [← afterSteps_succ] at hstep
      refine ⟨hskips.trans hstep.2, ?_⟩
      intro k hk
      rcases Nat.lt_succ_iff_lt_or_eq.mp hk with hearlier | rfl
      · exact hsteps k hearlier
      · exact hstep

/-! ### The instruction at its end -/

/-- The two bytes that come `k` bytes further on. -/
theorem dump_two (hpc : m'.registers.pc = m.registers.pc + BitVec.ofNat 16 k)
    (hram : m'.bus.ram = m.bus.ram) :
    m'.bus.ram.dump m'.registers.pc 2 = [m.codeByte k, m.codeByte (k + 1)] := by
  have hfirst : m'.codeByte 0 = m.codeByte k := codeByte_of_pc hpc hram 0
  have hsecond : m'.codeByte 1 = m.codeByte (k + 1) := codeByte_of_pc hpc hram 1
  rw [← hfirst, ← hsecond, codeByte_zero]
  rfl

/-- The instruction behind a prefix that has an effect. -/
theorem instruction_of_index {x : Index} (hindex : index? (m.codeByte 0) = some x)
    (hover : overridesPrefix (m.codeByte 1) = false) :
    m.instruction =
      ((Encoding.afterIndex x (m.codeByte 1)).parse [m.codeByte 2, m.codeByte 3]).1 := by
  have hfits := fits_afterIndex_any x (m.codeByte 1)
  have hparse := parse_dump_of_fits m.afterIndex hfits (length_bytes_fetch_le m.afterIndex hfits)
  rw [dump_two m.pc_afterIndex rfl] at hparse
  rw [instruction, fetch_indexed hindex hover, hparse]

/-- The instruction behind `ED`. -/
theorem instruction_of_extended (hed : m.codeByte 0 = 0xED) :
    m.instruction = ((extended (m.codeByte 1)).parse [m.codeByte 2, m.codeByte 3]).1 := by
  let behind := m.afterFirst.refresh.fetchByte.2
  have hfits := fits_extended_any (m.codeByte 1)
  have hpc : behind.registers.pc = m.registers.pc + BitVec.ofNat 16 2 :=
    Word.add_one_add_ofNat m.registers.pc 1
  have hparse := parse_dump_of_fits behind hfits (length_bytes_fetch_le behind hfits)
  rw [dump_two hpc rfl] at hparse
  rw [instruction_of_ed hed, hparse]

/-- After bytes that have been skipped no request is due. -/
theorem Skips.due_eq (h : m.Skips m' k) (hint : m.interruptPending = false)
    (hnmi : m.nmiPending = false) : m'.due = none := by
  obtain ⟨hsameInt, hsameNmi⟩ := h.requests_eq
  exact due_eq_none (hsameInt.trans hint) (hsameNmi.trans hnmi)

section

variable (hrunning : m.registers.halted = false) (hint : m.interruptPending = false)
  (hnmi : m.nmiPending = false)

include hrunning hint hnmi

/-- Behind the bytes that have been skipped stands an instruction with `ED`. -/
theorem Skips.executes_extended (h : m.Skips m' k) (hed : m.codeByte k = 0xED) :
    m'.Executes
      ((extended (m.codeByte (k + 1))).parse [m.codeByte (k + 2), m.codeByte (k + 3)]).1 := by
  have hcode := h.codeByte_eq
  have hexecutes := executes_of_due_none (h.due_eq hint hnmi) (h.halted_eq.trans hrunning)
  rwa [instruction_of_extended ((hcode 0).trans hed), hcode, hcode, hcode] at hexecutes

/-- Behind the bytes that have been skipped stands a prefix with the instruction that it affects. -/
theorem Skips.executes_indexed {x : Index} (h : m.Skips m' k)
    (hindex : index? (m.codeByte k) = some x)
    (hover : overridesPrefix (m.codeByte (k + 1)) = false) :
    m'.Executes
      ((Encoding.afterIndex x (m.codeByte (k + 1))).parse
        [m.codeByte (k + 2), m.codeByte (k + 3)]).1 := by
  have hcode := h.codeByte_eq
  have hfirst : index? (m'.codeByte 0) = some x := by
    rw [hcode]
    exact hindex
  have hsecond : overridesPrefix (m'.codeByte 1) = false := by
    rw [hcode]
    exact hover
  have hexecutes := executes_of_due_none (h.due_eq hint hnmi) (h.halted_eq.trans hrunning)
  rwa [instruction_of_index hfirst hsecond, hcode, hcode, hcode] at hexecutes

/-- A prefix behind the bytes that have been skipped begins an instruction, with which the step
succeeds. -/
theorem Skips.step_of_index {x : Index} (h : m.Skips m' k)
    (hindex : index? (m.codeByte k) = some x) : m'.Succeeds ∧ m'.step.2 = m'.executed := by
  have hfirst : index? (m'.codeByte 0) = some x := by
    rw [h.codeByte_eq]
    exact hindex
  exact succeeds_of_due_none (h.due_eq hint hnmi) (h.halted_eq.trans hrunning)
    (not_atHole_of_index hfirst)

end

/-- In a chain of prefixes only the last counts.  Each of those before it takes a step that goes on
by one byte, refreshes one row and does nothing else.  If the chain ends before `ED` its last prefix
does the same, and the next step carries out the instruction with `ED`; otherwise the step at the
last prefix carries out the instruction of the byte behind the chain with that prefix.  Where memory
holds nothing but prefixes, each step goes on by one byte for ever. -/
theorem last_prefix_counts (m : Machine) (hrunning : m.registers.halted = false)
    (hint : m.interruptPending = false) (hnmi : m.nmiPending = false) :
    (∀ n, (∀ k ≤ n, (index? (m.codeByte k)).isSome = true) → index? (m.codeByte (n + 1)) = none →
      (∀ k < n, (m.afterSteps k).Succeeds ∧ (m.afterSteps k).Skips (m.afterSteps (k + 1)) 1) ∧
      m.Skips (m.afterSteps n) n ∧ (m.afterSteps n).Succeeds ∧
      (m.codeByte (n + 1) = 0xED →
        (m.afterSteps n).Skips (m.afterSteps (n + 1)) 1 ∧
        m.Skips (m.afterSteps (n + 1)) (n + 1) ∧
        (m.afterSteps (n + 1)).Executes
          ((extended (m.codeByte (n + 2))).parse [m.codeByte (n + 3), m.codeByte (n + 4)]).1) ∧
      (m.codeByte (n + 1) ≠ 0xED →
        m.afterSteps (n + 1) = (m.afterSteps n).executed ∧
        ∃ x, index? (m.codeByte n) = some x ∧
          (m.afterSteps n).Executes
            ((Encoding.afterIndex x (m.codeByte (n + 1))).parse
              [m.codeByte (n + 2), m.codeByte (n + 3)]).1)) ∧
    ((∀ address, (index? (m.bus.ram.get address)).isSome = true) →
      ∀ k, (m.afterSteps k).Succeeds ∧ (m.afterSteps k).Skips (m.afterSteps (k + 1)) 1) := by
  constructor
  · intro n hchain hend
    have hbefore : ∀ k < n, m.Overridden k := fun k hk =>
      ⟨hchain k hk.le, overridesPrefix_of_index (hchain (k + 1) hk)⟩
    obtain ⟨hskips, hsteps⟩ := skips_afterSteps hrunning hint hnmi hbefore
    obtain ⟨x, hx⟩ := Option.isSome_iff_exists.mp (hchain n le_rfl)
    obtain ⟨hsucceeds, hstep⟩ := hskips.step_of_index hrunning hint hnmi hx
    refine ⟨hsteps, hskips, hsucceeds, ?_, ?_⟩
    · intro hed
      -- the last prefix has no effect either
      have hlast : m.Overridden n := ⟨hchain n le_rfl, by rw [hed]; rfl⟩
      have hall : ∀ k < n + 1, m.Overridden k := by
        intro k hk
        rcases Nat.lt_succ_iff_lt_or_eq.mp hk with hearlier | rfl
        · exact hbefore k hearlier
        · exact hlast
      obtain ⟨hskips', hsteps'⟩ := skips_afterSteps hrunning hint hnmi hall
      exact ⟨(hsteps' n (Nat.lt_succ_self n)).2, hskips',
        hskips'.executes_extended hrunning hint hnmi hed⟩
    · intro hed
      have hover := overridesPrefix_of_index_none hend hed
      rw [afterSteps_succ]
      exact ⟨hstep, x, hx, hskips.executes_indexed hrunning hint hnmi hx hover⟩
  · intro hall k
    have hchain : ∀ j < k + 1, m.Overridden j := fun j _ =>
      ⟨hall _, overridesPrefix_of_index (hall _)⟩
    exact (skips_afterSteps hrunning hint hnmi hchain).2 k (Nat.lt_succ_self k)

/-- `LD IX,1234h` behind two prefixes too many, with the chain across the end of memory. -/
def prefixedLoad : Machine where
  registers := { pc := 0xFFFE }
  bus.ram := Store.load (.fill 0 16) 0xFFFE [0xDD, 0xFD, 0xDD, 0x21, 0x34, 0x12]

theorem last_prefix_counts_at_load :
    (prefixedLoad.afterSteps 2).registers.pc = 0 ∧ (prefixedLoad.afterSteps 2).registers.r = 2 ∧
      (prefixedLoad.afterSteps 2).Executes (.ldWord .ix (.immediate 0x1234)) := by
  obtain ⟨hchain, -⟩ := last_prefix_counts prefixedLoad rfl rfl rfl
  obtain ⟨-, hskips, -, -, hlast⟩ := hchain 2 (by decide) (by decide)
  obtain ⟨-, x, hx, hexecutes⟩ := hlast (by decide)
  obtain rfl : Index.ix = x := Option.some.inj hx
  rw [hskips.cpu]
  exact ⟨rfl, rfl, hexecutes⟩

end Machine
end Z80Machine
