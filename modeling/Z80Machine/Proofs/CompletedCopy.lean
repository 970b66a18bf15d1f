import Z80Machine.Proofs.BlockPass

/-!
# Copying a whole block

`LDIR` and `LDDR` copy the bytes at HL one after the other to DE, as many as BC counts.  Memory
on the way is `Machine.copied`, where each byte is read from the memory that the bytes before it
have left: source and target may overlap, and both may run over an end of memory.  The main
statement is `block_copy_completes`.
-/

namespace Z80Machine

namespace Store

/-- The store after the first bytes of a block have been copied one after the other. -/
def copy (s : Store) (dir : Direction) (target source : Word) : Nat → Store
  | 0 => s
  | i + 1 =>
      let s := s.copy dir target source i
      s.set (dir.moved target i) (s.get (dir.moved source i))

end Store

namespace Machine

variable {m : Machine} {dir : Direction}

/-- Memory when some bytes of the block at HL have been copied to DE. -/
def copied (m : Machine) (dir : Direction) (k : Nat) : Store :=
  m.bus.ram.copy dir m.registers.de m.registers.hl k

/-- The flags when some bytes of the block at HL have been copied. -/
def copyFlags (m : Machine) (dir : Direction) : Nat → Flags
  | 0 => m.registers.f
  | k + 1 =>
      let sum := (m.copied dir k).get (dir.moved m.registers.hl k) + m.registers.a
      { m.registers.f with
        f5 := sum.getLsbD 1
        halfCarry := false
        f3 := sum.getLsbD 3
        parityOverflow := m.registers.bc - BitVec.ofNat 16 (k + 1) != 0
        addSubtract := false }

/-- Bank and memory when some bytes of the block at HL have been copied to DE. -/
def copyState (m : Machine) (dir : Direction) (k : Nat) : BlockState where
  bank :=
    { ((m.registers.setHl (dir.moved m.registers.hl k)).setDe (dir.moved m.registers.de k)).setBc
        (m.registers.bc - BitVec.ofNat 16 k) with
      f := m.copyFlags dir k }
  ram := m.copied dir k
  sent := m.bus.sent

theorem copyState_zero (m : Machine) (dir : Direction) :
    m.copyState dir 0 = m.blockState := by
  have hcount : m.registers.bc - BitVec.ofNat 16 0 = m.registers.bc := BitVec.sub_zero _
  unfold copyState
  rw [Direction.moved_zero, Direction.moved_zero, hcount, Bank.setHl_hl, Bank.setDe_de,
    Bank.setBc_bc]
  rfl

@[simp] theorem hl_copyState (k : Nat) :
    (m.copyState dir k).bank.hl = dir.moved m.registers.hl k :=
  Word.ofBytes_high_low _

@[simp] theorem de_copyState (k : Nat) :
    (m.copyState dir k).bank.de = dir.moved m.registers.de k :=
  Word.ofBytes_high_low _

@[simp] theorem bc_copyState (k : Nat) :
    (m.copyState dir k).bank.bc = m.registers.bc - BitVec.ofNat 16 k :=
  Word.ofBytes_high_low _

/-- A pass of the copy copies one more byte. -/
theorem next_copyState (k : Nat) :
    (m.copyState dir k).next .load dir m.bus.devices = m.copyState dir (k + 1) := by
  have hbank :
      (m.copyState dir k).bank.copied dir ((m.copied dir k).get (dir.moved m.registers.hl k)) =
        (m.copyState dir (k + 1)).bank := by
    unfold Bank.copied Registers.copied
    dsimp only
    rw [hl_copyState, de_copyState, bc_copyState, Direction.next_moved, Direction.next_moved,
      sub_ofNat_sub_one, Bank.bc_setBc]
    -- the flags that a pass keeps are still those of the start
    cases k with
    | zero => rfl
    | succ k => rfl
  unfold BlockState.next
  dsimp only
  rw [hl_copyState, de_copyState]
  exact congrArg (fun bank => BlockState.mk bank (m.copied dir (k + 1)) m.bus.sent) hbank

/-- The byte that is copied last. -/
def lastCopied (m : Machine) (dir : Direction) : Byte :=
  (m.copied dir (m.blockLength - 1)).get (dir.moved m.registers.hl (m.blockLength - 1))

/-- A repeating copy is a copy of the whole block, byte after byte.  If the instruction is still
there before each byte, it takes as many steps as there are bytes, 65536 of them if BC is zero,
and none fails. -/
theorem block_copy_completes (m : Machine) (dir : Direction)
    (hrunning : m.registers.halted = false) (hint : m.interruptPending = false)
    (hnmi : m.nmiPending = false)
    (hcode : ∀ i < m.blockLength,
      (m.copied dir i).dump m.registers.pc 2 = [0xED, BlockOperation.load.opcode dir]) :
    m.CompletesIn m.blockLength ∧
      (∀ k ≤ m.blockLength, (m.afterSteps k).bus.ram = m.copied dir k) ∧
      (m.afterSteps m.blockLength).registers =
        { m.registers with
          toBank :=
            { ((m.registers.setHl (dir.moved m.registers.hl m.blockLength)).setDe
                (dir.moved m.registers.de m.blockLength)).setBc 0 with
              f :=
                { m.registers.f with
                  f5 := (m.lastCopied dir + m.registers.a).getLsbD 1
                  halfCarry := false
                  f3 := (m.lastCopied dir + m.registers.a).getLsbD 3
                  parityOverflow := false
                  addSubtract := false } }
          pc := m.registers.pc + 2
          r := (Registers.refresh^[2 * m.blockLength] m.registers).r } ∧
      (m.afterSteps m.blockLength).bus.devices = m.bus.devices ∧
      (m.afterSteps m.blockLength).bus.sent = m.bus.sent := by
  have hpos : 0 < m.blockLength := rounds_pos m.registers.bc
  have hcontinues (k : Nat) (hk : k < m.blockLength) :
      BlockOperation.load.continues (m.copyState dir (k + 1)).bank =
        decide (k + 1 ≠ m.blockLength) := by
    rw [BlockOperation.continues, bc_copyState]
    exact sub_ofNat_bne_zero (Nat.succ_pos k) hk
  have hruns := runsThrough hrunning hint hnmi hpos (copyState_zero m dir) hcode
    next_copyState hcontinues
  have hsent := congrArg BlockState.sent (hruns.states m.blockLength (Nat.le_refl _))
  refine ⟨hruns.completes, fun k hk => congrArg BlockState.ram (hruns.states k hk),
    hruns.registers.trans ?_, hruns.devices, hsent⟩
  have hzero : m.registers.bc - BitVec.ofNat 16 m.blockLength = 0 :=
    (sub_ofNat_eq_zero_iff hpos (Nat.le_refl _)).mpr rfl
  obtain ⟨k, hk⟩ : ∃ k, m.blockLength = k + 1 := Nat.exists_eq_add_of_le' hpos
  unfold copyState lastCopied
  rw [hk] at hzero ⊢
  dsimp only [copyFlags]
  rw [hzero]
  rfl

/-- A machine that is about to copy three bytes, each onto the place of the next, over the end of
memory. -/
def overlappingExample : Machine where
  registers := { h := 0xFF, l := 0xFE, d := 0xFF, e := 0xFF, c := 3, pc := 0x8000 }
  bus.ram := (Store.load (.fill 0 16) 0x8000 [0xED, 0xB0]).load 0xFFFE [0x5A]

theorem overlapping_copy_fills :
    overlappingExample.blockLength = 3 ∧ overlappingExample.CompletesIn 3 ∧
      (overlappingExample.afterSteps 3).bus.ram.dump 0xFFFE 4 = [0x5A, 0x5A, 0x5A, 0x5A] ∧
      (overlappingExample.afterSteps 3).registers.hl = 1 ∧
      (overlappingExample.afterSteps 3).registers.bc = 0 := by
  have hcode : ∀ i < overlappingExample.blockLength,
      (overlappingExample.copied .up i).dump 0x8000 2 = [0xED, 0xB0] := by
    decide
  obtain ⟨hcompletes, hram, hregisters, -⟩ :=
    block_copy_completes overlappingExample .up rfl rfl rfl hcode
  have hfilled : (overlappingExample.copied .up 3).dump 0xFFFE 4 = [0x5A, 0x5A, 0x5A, 0x5A] := by
    decide
  refine ⟨rfl, hcompletes, ?_, congrArg (·.hl) hregisters, congrArg (·.bc) hregisters⟩
  rw [hram 3 (by decide)]
  exact hfilled

end Machine
end Z80Machine
