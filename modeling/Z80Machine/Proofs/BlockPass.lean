import Mathlib.Data.BitVec
import Mathlib.Logic.Function.Iterate
import Z80Machine.Proofs.BlockCopy

/-!
# The passes of a repeating block instruction

A block instruction that repeats makes one pass a step, and the program counter stays at it
until no further pass is to follow.  What a pass does is a function of the main bank, of memory
and of what has been sent (`BlockState.next`); all else that changes is the refresh counter, the
count of instructions and the delay after `EI` (`Passes`).  `runsThrough` puts the passes
together, by induction: for a sequence of states in which each is made from the one before it,
and only the last is not followed by another, the machine goes through these states, one a step.
-/

namespace Z80Machine

/-- How many rounds a counter lasts that is counted down before it is compared with zero.  At
zero it goes through all its values first. -/
def rounds {w : Nat} (counter : BitVec w) : Nat :=
  if counter = 0 then 2 ^ w else counter.toNat

theorem rounds_pos {w : Nat} (counter : BitVec w) : 0 < rounds counter := by
  unfold rounds
  split
  · exact Nat.two_pow_pos w
  · next hne =>
      apply Nat.pos_of_ne_zero
      intro hzero
      exact hne (BitVec.eq_of_toNat_eq hzero)

theorem sub_ofNat_sub_one {w : Nat} (counter : BitVec w) (k : Nat) :
    counter - BitVec.ofNat w k - 1 = counter - BitVec.ofNat w (k + 1) := by
  rw [BitVec.sub_sub, BitVec.ofNat_add]
  rfl

/-- The counter is at zero after its last round and not before. -/
theorem sub_ofNat_eq_zero_iff {w : Nat} {counter : BitVec w} {k : Nat} (hpos : 0 < k)
    (hle : k ≤ rounds counter) : counter - BitVec.ofNat w k = 0 ↔ k = rounds counter := by
  have hlt := counter.isLt
  have hsub : counter - BitVec.ofNat w k = 0 ↔ counter = BitVec.ofNat w k := sub_eq_zero
  rw [hsub, ← BitVec.toNat_inj, BitVec.toNat_ofNat]
  unfold rounds at hle ⊢
  by_cases hzero : counter = 0
  · rw [if_pos hzero] at hle ⊢
    rw [hzero]
    show 0 = k % 2 ^ w ↔ k = 2 ^ w
    rcases Nat.lt_or_eq_of_le hle with hlt | rfl
    · rw [Nat.mod_eq_of_lt hlt]
      omega
    · rw [Nat.mod_self]
      exact iff_of_true rfl rfl
  · rw [if_neg hzero] at hle ⊢
    rw [Nat.mod_eq_of_lt (by omega)]
    exact eq_comm

theorem sub_ofNat_bne_zero {w : Nat} {counter : BitVec w} {k : Nat} (hpos : 0 < k)
    (hle : k ≤ rounds counter) :
    (counter - BitVec.ofNat w k != 0) = decide (k ≠ rounds counter) := by
  rw [Bool.eq_iff_iff, bne_iff_ne, decide_eq_true_iff]
  exact not_congr (sub_ofNat_eq_zero_iff hpos hle)

namespace Bank

@[simp] theorem bc_setBc (k : Bank) (w : Word) : (k.setBc w).bc = w := Word.ofBytes_high_low w

@[simp] theorem setBc_bc (k : Bank) : k.setBc k.bc = k := by simp [setBc, bc]

@[simp] theorem setDe_de (k : Bank) : k.setDe k.de = k := by simp [setDe, de]

@[simp] theorem setHl_hl (k : Bank) : k.setHl k.hl = k := by simp [setHl, hl]

/-- The bank when a byte has been copied. -/
def copied (k : Bank) (dir : Direction) (value : Byte) : Bank :=
  (({ toBank := k } : Registers).copied dir value).toBank

end Bank

/-- What a block instruction works on: the main bank, memory, and what has been sent to devices. -/
structure BlockState where
  bank : Bank
  ram : Store
  sent : List (Word × Byte)

namespace BlockState

/-- The byte whose bits 1 and 3 go to the flags when a search compares the accumulator `a` with a
byte. -/
def searchRest (a value : Byte) : Byte :=
  a - value - BitVec.ofNat 8 (decide (a.toNat % 16 < value.toNat % 16)).toNat

/-- The flags that a search leaves when it compares the accumulator `a` with a byte. -/
def searchFlags (a value : Byte) (more carry : Bool) : Flags where
  sign := (a - value).msb
  zero := a - value == 0
  f5 := (searchRest a value).getLsbD 1
  halfCarry := decide (a.toNat % 16 < value.toNat % 16)
  f3 := (searchRest a value).getLsbD 3
  parityOverflow := more
  addSubtract := true
  carry := carry

/-- What one pass of a block instruction makes of its state. -/
def next (s : BlockState) (op : BlockOperation) (dir : Direction) (devices : Store) : BlockState :=
  match op with
  | .load =>
      let value := s.ram.get s.bank.hl
      { s with
        bank := s.bank.copied dir value
        ram := s.ram.set s.bank.de value }
  | .compare =>
      let bank := (s.bank.setHl (dir.next s.bank.hl)).setBc (s.bank.bc - 1)
      { s with
        bank :=
          { bank with
            f := searchFlags s.bank.a (s.ram.get s.bank.hl) (bank.bc != 0) s.bank.f.carry } }
  | .input =>
      let value := devices.get s.bank.bc
      let sum := value.toNat + (dir.nextByte s.bank.c).toNat
      { s with
        bank :=
          { s.bank.setHl (dir.next s.bank.hl) with
            b := s.bank.b - 1
            f := Machine.blockDeviceFlags (s.bank.b - 1) value sum }
        ram := s.ram.set s.bank.hl value }
  | .output =>
      let value := s.ram.get s.bank.hl
      let sum := value.toNat + (dir.next s.bank.hl).low.toNat
      { s with
        bank :=
          { s.bank.setHl (dir.next s.bank.hl) with
            b := s.bank.b - 1
            f := Machine.blockDeviceFlags (s.bank.b - 1) value sum }
        sent := s.sent ++ [(.ofBytes (s.bank.b - 1) s.bank.c, value)] }

end BlockState

/-- Whether a pass that leaves the bank so is followed by another. -/
def BlockOperation.continues (op : BlockOperation) (k : Bank) : Bool :=
  match op with
  | .load => k.bc != 0
  | .compare => k.bc != 0 && !k.f.zero
  | .input | .output => k.b != 0

namespace Machine

variable {m : Machine} {op : BlockOperation} {dir : Direction}

/-- The number of bytes that BC counts, which is 65536 if it is zero. -/
def blockLength (m : Machine) : Nat := rounds m.registers.bc

/-- What a block instruction finds. -/
def blockState (m : Machine) : BlockState := ⟨m.registers.toBank, m.bus.ram, m.bus.sent⟩

/-- What a block instruction does, with the program counter behind it. -/
theorem block_next (m : Machine) (op : BlockOperation) (dir : Direction) :
    let s := m.blockState.next op dir m.bus.devices
    (m.block op dir true).registers =
        { m.registers with
          toBank := s.bank
          pc := if op.continues s.bank then m.registers.pc - 2 else m.registers.pc } ∧
      (m.block op dir true).blockState = s ∧
      (m.block op dir true).bus.devices = m.bus.devices := by
  cases op with
  | load =>
      unfold block blockLoad
      dsimp only
      rw [repeatIf_eq]
      exact ⟨rfl, rfl, rfl⟩
  | compare =>
      unfold block blockCompare
      dsimp only
      rw [repeatIf_eq]
      exact ⟨rfl, rfl, rfl⟩
  | input =>
      unfold block blockInput
      dsimp only
      rw [repeatIf_eq]
      exact ⟨rfl, rfl, rfl⟩
  | output =>
      unfold block blockOutput
      dsimp only
      rw [repeatIf_eq]
      refine ⟨rfl, ?_, rfl⟩
      exact congrArg (BlockState.mk _ _) (Bus.sent_output (m.read m.registers.hl).2.bus _ _)

/-- The second machine is the first after `k` passes of the block instruction at its program
counter, which have left the given state. -/
structure Passes (m : Machine) (k : Nat) (s : BlockState) (finished : Bool) (m' : Machine) :
    Prop where
  cpu : m'.toCpu =
    { m.toCpu with
      registers :=
        { m.registers with
          toBank := s.bank
          pc := if finished then m.registers.pc + 2 else m.registers.pc
          r := (Registers.refresh^[2 * k] m.registers).r }
      enableDelay := m.enableDelay && decide (k = 0)
      count := m.count + BitVec.ofNat 64 k }
  state : m'.blockState = s
  devices : m'.bus.devices = m.bus.devices

theorem Passes.refl (m : Machine) : m.Passes 0 m.blockState false m where
  cpu := by simp [blockState]
  state := rfl
  devices := rfl

/-- How R counts does not depend on the other registers. -/
theorem r_refresh_iterate {s s' : Registers} (h : s.r = s'.r) (n : Nat) :
    (Registers.refresh^[n] s).r = (Registers.refresh^[n] s').r := by
  induction n with
  | zero => exact h
  | succ n ih =>
      rw [Function.iterate_succ_apply', Function.iterate_succ_apply']
      exact congrArg (fun r : Byte => BitVec.ofBool r.msb ++ (r.extractLsb' 0 7 + 1)) ih

/-- R goes on where it stands. -/
theorem r_refresh_iterate_of_eq {s s' : Registers} {k : Nat}
    (h : s'.r = (Registers.refresh^[k] s).r) (l : Nat) :
    (Registers.refresh^[l] s').r = (Registers.refresh^[k + l] s).r := by
  rw [r_refresh_iterate h, ← Function.iterate_add_apply, Nat.add_comm]

/-- The delay after `EI` ends with the first of some instructions. -/
theorem delay_add (delay : Bool) (k l : Nat) :
    (delay && decide (k = 0) && decide (l = 0)) = (delay && decide (k + l = 0)) := by
  rw [Bool.and_assoc, ← Bool.decide_and, decide_eq_decide.mpr Nat.add_eq_zero_iff]

theorem Passes.trans {m m' m'' : Machine} {k l : Nat} {s s' : BlockState} {finished : Bool}
    (h : m.Passes k s false m') (h' : m'.Passes l s' finished m'') :
    m.Passes (k + l) s' finished m'' where
  cpu := by
    have hsame : m'.registers.r = (Registers.refresh^[2 * k] m.registers).r := by rw [h.cpu]
    rw [h'.cpu, r_refresh_iterate_of_eq hsame, ← Nat.mul_add, h.cpu]
    simp only [Bool.false_eq_true, if_false]
    rw [delay_add, BitVec.ofNat_add, BitVec.add_assoc]
  state := h'.state
  devices := h'.devices.trans h.devices

theorem registers_ready_of_atBlock (h : m.AtBlock op dir) :
    m.ready.registers =
      { m.registers with
        pc := m.registers.pc + 2
        r := m.registers.refresh.refresh.r } := by
  have hr : m.ready.registers.r = m.registers.refresh.refresh.r := by
    rw [ready, fetch_of_atBlock h]
    rfl
  rw [registers_ready, hr, fetch_of_atBlock h]
  rfl

theorem executed_of_atBlock (h : m.AtBlock op dir) :
    m.executed =
      { m.ready.block op dir true with count := (m.ready.block op dir true).count + 1 } := by
  rw [executed, instruction_of_atBlock h]
  rfl

/-- A step at a block instruction makes one pass. -/
theorem passes_step (hrunning : m.registers.halted = false) (hint : m.interruptPending = false)
    (hnmi : m.nmiPending = false) (h : m.AtBlock op dir) :
    m.Succeeds ∧
      m.Passes 1 (m.blockState.next op dir m.bus.devices)
        (!op.continues (m.blockState.next op dir m.bus.devices).bank) m.step.2 := by
  obtain ⟨hsucceeds, hstep⟩ := succeeds_of_due_none (due_eq_none hint hnmi) hrunning
    (not_atHole_of_atBlock h)
  have hready := registers_ready_of_atBlock h
  have hfound : m.ready.blockState = m.blockState := by
    rw [ready, fetch_of_atBlock h]
    rfl
  have hdevices : m.ready.bus.devices = m.bus.devices := by
    rw [ready, machine_fetch]
  have hblock := block_next m.ready op dir
  rw [hfound, hdevices, hready] at hblock
  generalize m.blockState.next op dir m.bus.devices = s at hblock
  obtain ⟨hregisters, hstate, hkept⟩ := hblock
  have hafter : m.executed.registers =
      { m.registers with
        toBank := s.bank
        pc := if !op.continues s.bank then m.registers.pc + 2 else m.registers.pc
        r := m.registers.refresh.refresh.r } := by
    -- the pass takes back the two bytes of the instruction if another is to follow
    have hpc : m.registers.pc + 2 - 2 = m.registers.pc := BitVec.add_sub_cancel _ _
    rw [executed_of_atBlock h]
    refine hregisters.trans ?_
    rw [hpc]
    cases op.continues s.bank <;> rfl
  have hdelay : m.executed.enableDelay = false := by
    apply enableDelay_executed_of_ne
    rw [instruction_of_atBlock h]
    exact Instruction.noConfusion
  refine ⟨hsucceeds, ?_⟩
  rw [hstep]
  refine ⟨?_, ?_, ?_⟩
  · refine (cpu_executed m).trans ?_
    rw [hafter, hdelay, ← Bool.and_false m.enableDelay]
    rfl
  · rw [executed_of_atBlock h]
    exact hstate
  · rw [executed_of_atBlock h]
    exact hkept

/-- The next steps all succeed and stay at the instruction of two bytes at the program counter,
and the last of them leaves it. -/
structure CompletesIn (m : Machine) (steps : Nat) : Prop where
  succeeds : ∀ k < steps, (m.afterSteps k).Succeeds
  stays : ∀ k < steps, (m.afterSteps k).registers.pc = m.registers.pc
  leaves : (m.afterSteps steps).registers.pc = m.registers.pc + 2

/-- Between two passes a step makes the next one, if the instruction is still there. -/
theorem Passes.step {m' : Machine} {k : Nat} {s : BlockState} (h : m.Passes k s false m')
    (hrunning : m.registers.halted = false) (hint : m.interruptPending = false)
    (hnmi : m.nmiPending = false)
    (hcode : s.ram.dump m.registers.pc 2 = [0xED, op.opcode dir]) :
    m'.Succeeds ∧
      m.Passes (k + 1) (s.next op dir m.bus.devices)
        (!op.continues (s.next op dir m.bus.devices).bank) m'.step.2 := by
  have hregisters := congrArg Cpu.registers h.cpu
  have hpc : m'.registers.pc = m.registers.pc := by
    rw [hregisters]
    rfl
  have hram : m'.bus.ram = s.ram := congrArg BlockState.ram h.state
  have hat : m'.AtBlock op dir := by
    rw [← hpc, ← hram] at hcode
    simp only [Store.dump, List.cons.injEq, and_true] at hcode
    rw [AtBlock, codeByte_zero]
    exact hcode
  obtain ⟨hok, hpass⟩ := passes_step ((congrArg Registers.halted hregisters).trans hrunning)
    ((congrArg Cpu.interruptPending h.cpu).trans hint)
    ((congrArg Cpu.nmiPending h.cpu).trans hnmi) hat
  rw [h.state, h.devices] at hpass
  exact ⟨hok, h.trans hpass⟩

/-- A machine that carries a block instruction out to its end in `t` passes, through the given
states. -/
structure RunsThrough (m : Machine) (t : Nat) (state : Nat → BlockState) : Prop where
  completes : m.CompletesIn t
  states : ∀ k ≤ t, (m.afterSteps k).blockState = state k
  registers : (m.afterSteps t).registers =
    { m.registers with
      toBank := (state t).bank
      pc := m.registers.pc + 2
      r := (Registers.refresh^[2 * t] m.registers).r }
  devices : (m.afterSteps t).bus.devices = m.bus.devices

/-- The states between the passes of a block instruction are given; each comes from the one before
by a pass, and only the last has no further pass to follow.  If the instruction is still there
before each pass, the machine goes through these states to the end. -/
theorem runsThrough {t : Nat} {state : Nat → BlockState}
    (hrunning : m.registers.halted = false) (hint : m.interruptPending = false)
    (hnmi : m.nmiPending = false) (ht : 0 < t) (hstart : state 0 = m.blockState)
    (hcode : ∀ k < t, (state k).ram.dump m.registers.pc 2 = [0xED, op.opcode dir])
    (hnext : ∀ k, (state k).next op dir m.bus.devices = state (k + 1))
    (hcontinues : ∀ k < t, op.continues (state (k + 1)).bank = decide (k + 1 ≠ t)) :
    m.RunsThrough t state := by
  have hstep (k : Nat) (hk : k < t) (h : m.Passes k (state k) false (m.afterSteps k)) :
      (m.afterSteps k).Succeeds ∧
        m.Passes (k + 1) (state (k + 1)) (decide (k + 1 = t)) (m.afterSteps (k + 1)) := by
    have hpass := h.step hrunning hint hnmi (hcode k hk)
    rw [hnext k, hcontinues k hk, decide_not, Bool.not_not, ← afterSteps_succ] at hpass
    exact hpass
  have hbefore (k : Nat) (hk : k < t) : m.Passes k (state k) false (m.afterSteps k) := by
    induction k with
    | zero =>
        rw [hstart]
        exact .refl m
    | succ k ih =>
        have hnow := (hstep k (Nat.lt_of_succ_lt hk) (ih (Nat.lt_of_succ_lt hk))).2
        rwa [decide_eq_false (Nat.ne_of_lt hk)] at hnow
  have hlast : m.Passes t (state t) true (m.afterSteps t) := by
    obtain ⟨k, rfl⟩ : ∃ k, t = k + 1 := Nat.exists_eq_add_of_le' ht
    have hnow := (hstep k (Nat.lt_succ_self k) (hbefore k (Nat.lt_succ_self k))).2
    rwa [decide_eq_true rfl] at hnow
  have hregisters := congrArg Cpu.registers hlast.cpu
  refine ⟨⟨fun k hk => (hstep k hk (hbefore k hk)).1, fun k hk => ?_, ?_⟩, fun k hk => ?_,
    hregisters, hlast.devices⟩
  · exact congrArg (·.registers.pc) (hbefore k hk).cpu
  · rw [hregisters]
    rfl
  · rcases Nat.lt_or_eq_of_le hk with hlt | rfl
    · exact (hbefore k hlt).state
    · exact hlast.state

end Machine
end Z80Machine
