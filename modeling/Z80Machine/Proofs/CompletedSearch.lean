import Z80Machine.Proofs.BlockPass

/-!
# Searching a whole block

`CPIR` and `CPDR` compare the accumulator with the bytes at HL one after the other, and stop
behind the first that is equal to it, or behind the last that BC counts.  The two ends are told
apart by the flags: zero says whether a byte was found, and parity/overflow whether any is left,
so that both can be seen if the last byte of all is the one that is found.  The main statement is
`block_search_completes`.
-/

namespace Z80Machine

theorem Arithmetic.sign_compareByte (a b : Byte) :
    (compareByte a b).flags.sign = (a - b).msb :=
  congrArg BitVec.msb (BitVec.sub_zero (a - b))

namespace Machine

variable {m : Machine} {dir : Direction}

/-- Whether the byte at a place in the block at HL is the one in the accumulator. -/
def hits (m : Machine) (dir : Direction) (i : Nat) : Bool :=
  m.bus.ram.get (dir.moved m.registers.hl i) == m.registers.a

/-- The first place in the block at HL with the byte in the accumulator. -/
def firstHit (m : Machine) (dir : Direction) : Option Nat :=
  (List.range m.blockLength).find? (m.hits dir)

/-- The number of bytes that a repeating search looks at. -/
def searchLength (m : Machine) (dir : Direction) : Nat :=
  match m.firstHit dir with
  | some i => i + 1
  | none => m.blockLength

/-- The byte that a repeating search looks at last. -/
def lastSearched (m : Machine) (dir : Direction) : Byte :=
  m.bus.ram.get (dir.moved m.registers.hl (m.searchLength dir - 1))

theorem searchLength_pos : 0 < m.searchLength dir := by
  unfold searchLength
  cases m.firstHit dir with
  | some i => exact Nat.succ_pos i
  | none => exact rounds_pos m.registers.bc

theorem searchLength_le : m.searchLength dir ≤ m.blockLength := by
  unfold searchLength
  cases hfirst : m.firstHit dir with
  | some i => exact List.mem_range.mp (List.mem_of_find?_eq_some hfirst)
  | none => exact Nat.le_refl _

/-- A byte of the search is the last one if it is equal to the accumulator, or if no more are
left. -/
theorem succ_eq_searchLength_iff {k : Nat} (hk : k < m.searchLength dir) :
    k + 1 = m.searchLength dir ↔ m.hits dir k = true ∨ k + 1 = m.blockLength := by
  unfold searchLength at hk ⊢
  cases hfirst : m.firstHit dir with
  | none =>
      rw [hfirst] at hk
      have hmiss := List.find?_eq_none.mp hfirst k (List.mem_range.mpr hk)
      exact (or_iff_right hmiss).symm
  | some i =>
      rw [hfirst] at hk
      obtain ⟨hhit, hmem, hbefore⟩ := List.find?_range_eq_some.mp hfirst
      rcases Nat.lt_or_eq_of_le (Nat.le_of_lt_succ hk) with hlt | rfl
      · -- before the first hit the byte is another one, and the hit itself is still to come
        have hmiss : ¬m.hits dir k = true := by
          rw [Bool.not_eq_true, ← Bool.not_eq_true']
          exact hbefore k hlt
        have hi := List.mem_range.mp hmem
        dsimp only
        rw [or_iff_right hmiss]
        omega
      · exact iff_of_true rfl (.inl hhit)

/-- The last byte of a search is equal to the accumulator if any is. -/
theorem isSome_firstHit : (m.firstHit dir).isSome = m.hits dir (m.searchLength dir - 1) := by
  unfold searchLength
  cases hfirst : m.firstHit dir with
  | none =>
      have hlast : m.blockLength - 1 ∈ List.range m.blockLength :=
        List.mem_range.mpr (Nat.sub_one_lt_of_lt (rounds_pos m.registers.bc))
      exact (Bool.eq_false_of_not_eq_true (List.find?_eq_none.mp hfirst _ hlast)).symm
  | some i => exact (List.find?_some hfirst).symm

/-- A search compares by a subtraction. -/
theorem sub_beq_zero_eq_hits (k : Nat) :
    (m.registers.a - m.bus.ram.get (dir.moved m.registers.hl k) == 0) = m.hits dir k := by
  unfold hits
  rw [Bool.eq_iff_iff, beq_iff_eq, beq_iff_eq, eq_comm (b := m.registers.a)]
  exact sub_eq_zero

/-- The flags when some bytes of the block at HL have been searched. -/
def flagsSearched (m : Machine) (dir : Direction) : Nat → Flags
  | 0 => m.registers.f
  | k + 1 =>
      BlockState.searchFlags m.registers.a (m.bus.ram.get (dir.moved m.registers.hl k))
        (m.registers.bc - BitVec.ofNat 16 (k + 1) != 0) m.registers.f.carry

/-- Bank and memory when some bytes of the block at HL have been searched. -/
def searchState (m : Machine) (dir : Direction) (k : Nat) : BlockState where
  bank :=
    { (m.registers.setHl (dir.moved m.registers.hl k)).setBc
        (m.registers.bc - BitVec.ofNat 16 k) with
      f := m.flagsSearched dir k }
  ram := m.bus.ram
  sent := m.bus.sent

theorem searchState_zero (m : Machine) (dir : Direction) :
    m.searchState dir 0 = m.blockState := by
  have hcount : m.registers.bc - BitVec.ofNat 16 0 = m.registers.bc := BitVec.sub_zero _
  unfold searchState
  rw [Direction.moved_zero, hcount, Bank.setHl_hl, Bank.setBc_bc]
  rfl

@[simp] theorem hl_searchState (k : Nat) :
    (m.searchState dir k).bank.hl = dir.moved m.registers.hl k :=
  Word.ofBytes_high_low _

@[simp] theorem bc_searchState (k : Nat) :
    (m.searchState dir k).bank.bc = m.registers.bc - BitVec.ofNat 16 k :=
  Word.ofBytes_high_low _

/-- A pass of the search looks at one more byte. -/
theorem next_searchState (k : Nat) :
    (m.searchState dir k).next .compare dir m.bus.devices = m.searchState dir (k + 1) := by
  unfold BlockState.next
  dsimp only
  rw [hl_searchState, bc_searchState, Direction.next_moved, sub_ofNat_sub_one,
    Bank.bc_setBc]
  -- the carry is still that of the start
  cases k with
  | zero => rfl
  | succ k => rfl

/-- A pass is followed by another if it was not the last of the search. -/
theorem continues_searchState {k : Nat} (hk : k < m.searchLength dir) :
    BlockOperation.compare.continues (m.searchState dir (k + 1)).bank =
      decide (k + 1 ≠ m.searchLength dir) := by
  have hlast := succ_eq_searchLength_iff hk
  have hzero : (m.searchState dir (k + 1)).bank.f.zero = m.hits dir k := sub_beq_zero_eq_hits k
  have hbc : (m.registers.bc - BitVec.ofNat 16 (k + 1) != 0) = decide (k + 1 ≠ m.blockLength) :=
    sub_ofNat_bne_zero (Nat.succ_pos k) (Nat.le_trans hk searchLength_le)
  rw [BlockOperation.continues, bc_searchState, hzero, hbc, Bool.eq_iff_iff]
  simp only [ne_eq, hlast, Bool.and_eq_true, Bool.not_eq_true', decide_eq_true_eq, not_or,
    Bool.not_eq_true]
  exact and_comm

/-- A repeating search looks at the bytes of a block in their order, until one is equal to the
accumulator or all have been looked at.  It takes as many steps as it looks at bytes, and none
fails. -/
theorem block_search_completes (m : Machine) (dir : Direction)
    (hrunning : m.registers.halted = false) (hint : m.interruptPending = false)
    (hnmi : m.nmiPending = false)
    (hcode : m.bus.ram.dump m.registers.pc 2 = [0xED, BlockOperation.compare.opcode dir]) :
    m.CompletesIn (m.searchLength dir) ∧
      (m.afterSteps (m.searchLength dir)).registers =
        { m.registers with
          toBank :=
            { (m.registers.setHl (dir.moved m.registers.hl (m.searchLength dir))).setBc
                (m.registers.bc - BitVec.ofNat 16 (m.searchLength dir)) with
              f :=
                { sign := (Arithmetic.compareByte m.registers.a (m.lastSearched dir)).flags.sign
                  zero := (m.firstHit dir).isSome
                  f5 := (BlockState.searchRest m.registers.a (m.lastSearched dir)).getLsbD 1
                  halfCarry :=
                    (Arithmetic.compareByte m.registers.a (m.lastSearched dir)).flags.halfCarry
                  f3 := (BlockState.searchRest m.registers.a (m.lastSearched dir)).getLsbD 3
                  parityOverflow :=
                    m.registers.bc - BitVec.ofNat 16 (m.searchLength dir) != 0
                  addSubtract := true
                  carry := m.registers.f.carry } }
          pc := m.registers.pc + 2
          r := (Registers.refresh^[2 * m.searchLength dir] m.registers).r } ∧
      (m.afterSteps (m.searchLength dir)).bus.ram = m.bus.ram ∧
      (m.afterSteps (m.searchLength dir)).bus.devices = m.bus.devices ∧
      (m.afterSteps (m.searchLength dir)).bus.sent = m.bus.sent := by
  have hruns := runsThrough hrunning hint hnmi searchLength_pos (searchState_zero m dir)
    (fun _ _ => hcode) next_searchState (fun _ => continues_searchState)
  have hlast := hruns.states (m.searchLength dir) (Nat.le_refl _)
  refine ⟨hruns.completes, hruns.registers.trans ?_, congrArg BlockState.ram hlast, hruns.devices,
    congrArg BlockState.sent hlast⟩
  rw [isSome_firstHit, ← sub_beq_zero_eq_hits]
  obtain ⟨k, hk⟩ : ∃ k, m.searchLength dir = k + 1 :=
    Nat.exists_eq_add_of_le' searchLength_pos
  unfold searchState lastSearched
  rw [hk]
  dsimp only [flagsSearched]
  rw [Arithmetic.sign_compareByte]
  rfl

/-- A machine that is about to search two bytes, over the end of memory, for one that is equal to
the second. -/
def lastByteExample : Machine where
  registers := { a := 0x33, h := 0xFF, l := 0xFF, c := 2, pc := 0x8000 }
  bus.ram := (Store.load (.fill 0 16) 0x8000 [0xED, 0xB1]).load 0 [0x33]

theorem search_finds_last_byte :
    lastByteExample.firstHit .up = some 1 ∧ lastByteExample.CompletesIn 2 ∧
      (lastByteExample.afterSteps 2).registers.f.zero = true ∧
      (lastByteExample.afterSteps 2).registers.f.parityOverflow = false ∧
      (lastByteExample.afterSteps 2).registers.hl = 1 := by
  have hfirst : lastByteExample.firstHit .up = some 1 := by decide
  have hlength : lastByteExample.searchLength .up = 2 := by rw [searchLength, hfirst]
  obtain ⟨hcompletes, hregisters, -⟩ :=
    block_search_completes lastByteExample .up rfl rfl rfl (by decide)
  rw [hlength, hfirst] at hregisters
  rw [hlength] at hcompletes
  exact ⟨hfirst, hcompletes, congrArg (·.f.zero) hregisters,
    congrArg (·.f.parityOverflow) hregisters, congrArg (·.hl) hregisters⟩

end Machine
end Z80Machine
