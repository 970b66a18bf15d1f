import Z80Machine.Proofs.Stepping

/-!
# Block instructions in memory, and one byte of a copy

A block instruction that repeats has two bytes, which `AtBlock` names.  The repeating copy
instructions `LDIR` and `LDDR` move one byte each time they are carried out, and stay where
they are until none is left.  What one such step does to the registers depends on the
registers and on the byte that is moved (`copied`), and not on where the machine has been
before.
-/

namespace Z80Machine

/-- The byte behind `ED` that repeats a block operation in a direction. -/
def BlockOperation.opcode : BlockOperation → Direction → Byte
  | .load, .up => 0xB0
  | .load, .down => 0xB8
  | .compare, .up => 0xB1
  | .compare, .down => 0xB9
  | .input, .up => 0xB2
  | .input, .down => 0xBA
  | .output, .up => 0xB3
  | .output, .down => 0xBB

/-- The address `i` places on. -/
def Direction.moved (dir : Direction) (address : Word) (i : Nat) : Word :=
  match dir with
  | .up => address + BitVec.ofNat 16 i
  | .down => address - BitVec.ofNat 16 i

theorem Direction.moved_zero (dir : Direction) (address : Word) :
    dir.moved address 0 = address := by
  cases dir <;> simp [moved]

theorem Direction.next_moved (dir : Direction) (address : Word) (i : Nat) :
    dir.next (dir.moved address i) = dir.moved address (i + 1) := by
  cases dir with
  | up => simp [next, moved, BitVec.ofNat_add, BitVec.add_assoc]
  | down => simp [next, moved, BitVec.ofNat_add, BitVec.sub_sub]

/-- The registers when a byte has been copied by the instruction at the program counter. -/
def Registers.copied (s : Registers) (dir : Direction) (value : Byte) : Registers :=
  let sum := value + s.a
  let bank := ((s.setHl (dir.next s.hl)).setDe (dir.next s.de)).setBc (s.bc - 1)
  let more := bank.bc != 0
  let flags : Flags :=
    { s.f with
      f5 := sum.getLsbD 1
      halfCarry := false
      f3 := sum.getLsbD 3
      parityOverflow := more
      addSubtract := false }
  { s with toBank := { bank with f := flags }, pc := if more then s.pc else s.pc + 2 }

namespace Registers

variable (s : Registers) (dir : Direction) (value : Byte)

@[simp] theorem hl_copied : (s.copied dir value).hl = dir.next s.hl :=
  Word.ofBytes_high_low _

@[simp] theorem de_copied : (s.copied dir value).de = dir.next s.de :=
  Word.ofBytes_high_low _

@[simp] theorem bc_copied : (s.copied dir value).bc = s.bc - 1 :=
  Word.ofBytes_high_low _

theorem pc_copied : (s.copied dir value).pc = if s.bc = 1 then s.pc + 2 else s.pc := by
  have hbc : (((s.setHl (dir.next s.hl)).setDe (dir.next s.de)).setBc (s.bc - 1)).bc = s.bc - 1 :=
    Word.ofBytes_high_low _
  unfold copied
  dsimp only
  rw [hbc]
  -- what is compared with zero is the count after the byte
  by_cases hone : s.bc = 1
  · rw [hone]
    rfl
  · have hmore : s.bc - 1 ≠ 0 := by
      intro hzero
      apply hone
      rw [← BitVec.sub_add_cancel s.bc 1, hzero]
      rfl
    rw [if_neg hone, if_pos (bne_iff_ne.mpr hmore)]

/-- The refresh counter plays no part in a copy. -/
theorem copied_refresh (r : Byte) :
    ({ s with r } : Registers).copied dir value = { s.copied dir value with r } := rfl

end Registers

namespace Machine

variable {m : Machine} {op : BlockOperation} {dir : Direction}

/-- Whether the instruction at the program counter repeats a block operation. -/
def AtBlock (m : Machine) (op : BlockOperation) (dir : Direction) : Prop :=
  m.codeByte 0 = 0xED ∧ m.codeByte 1 = op.opcode dir

theorem fetch_of_atBlock (h : m.AtBlock op dir) :
    m.fetch Instruction.reader =
      ⟨.block op dir true, [m.codeByte 0, m.codeByte 1], m.afterFirst.refresh.fetchByte.2⟩ := by
  apply fetch_extended h.1
  rw [h.2]
  cases op <;> cases dir <;> rfl

theorem instruction_of_atBlock (h : m.AtBlock op dir) : m.instruction = .block op dir true := by
  rw [instruction, fetch_of_atBlock h]

theorem not_atHole_of_atBlock (h : m.AtBlock op dir) : ¬m.AtHole := by
  rintro ⟨-, hhole⟩
  rw [h.2] at hhole
  cases op <;> cases dir <;> contradiction

theorem repeatIf_eq (m : Machine) (again : Bool) :
    m.repeatIf again =
      { m with registers.pc := if again then m.registers.pc - 2 else m.registers.pc } := by
  cases again <;> rfl

/-- The copy as it is carried out, with the program counter behind the instruction. -/
theorem registers_blockLoad (m : Machine) (dir : Direction) :
    (m.blockLoad dir true).registers =
      ({ m.registers with pc := m.registers.pc - 2 } : Registers).copied dir
        (m.bus.ram.get m.registers.hl) := by
  -- the repetition takes back the two bytes of the instruction
  have hback : m.registers.pc - 2 + 2 = m.registers.pc := BitVec.sub_add_cancel _ _
  unfold Registers.copied
  dsimp only
  rw [hback]
  exact congrArg (fun m : Machine => m.registers) (repeatIf_eq _ _)

theorem ram_blockLoad (m : Machine) (dir : Direction) :
    (m.blockLoad dir true).bus.ram =
      m.bus.ram.set m.registers.de (m.bus.ram.get m.registers.hl) := by
  unfold blockLoad repeatIf
  dsimp only
  split <;> rfl

theorem registers_executed_copy (h : m.AtBlock .load dir) :
    m.executed.registers =
      { m.registers.copied dir (m.bus.ram.get m.registers.hl) with
        r := m.executed.registers.r } := by
  have hexecuted : m.executed.registers = (m.ready.blockLoad dir true).registers := by
    rw [executed, instruction_of_atBlock h]
    rfl
  have hready := registers_ready m
  rw [fetch_of_atBlock h] at hready
  have hback : m.registers.pc + 2 - 2 = m.registers.pc := BitVec.add_sub_cancel _ _
  rw [hexecuted, registers_blockLoad, hready, ram_ready]
  show ({ m.registers with pc := m.registers.pc + 2 - 2, r := m.ready.registers.r } :
    Registers).copied dir (m.bus.ram.get m.registers.hl) = _
  rw [hback]
  rfl

theorem ram_executed_copy (h : m.AtBlock .load dir) :
    m.executed.bus.ram = m.bus.ram.set m.registers.de (m.bus.ram.get m.registers.hl) := by
  have hexecuted : m.executed.bus.ram = (m.ready.blockLoad dir true).bus.ram := by
    rw [executed, instruction_of_atBlock h]
    rfl
  rw [hexecuted, ram_blockLoad, ram_ready, registers_ready]

/-- Two machines that differ in the refresh counter and in some part of memory still do so
after both have copied a byte from elsewhere. -/
theorem executed_copy_agrees {y x : Machine} {addresses : List Word} (hy : y.AtBlock .load dir)
    (hx : x.AtBlock .load dir) (hregisters : x.registers = { y.registers with r := x.registers.r })
    (hram : ∀ a ∉ addresses, x.bus.ram.get a = y.bus.ram.get a)
    (hsource : y.registers.hl ∉ addresses) :
    x.executed.registers = { y.executed.registers with r := x.executed.registers.r } ∧
      ∀ a ∉ addresses, x.executed.bus.ram.get a = y.executed.bus.ram.get a := by
  have hhl : x.registers.hl = y.registers.hl := by rw [hregisters]
  have hde : x.registers.de = y.registers.de := by rw [hregisters]
  have hvalue : x.bus.ram.get x.registers.hl = y.bus.ram.get y.registers.hl := by
    rw [hhl]
    exact hram _ hsource
  constructor
  · have hx' := registers_executed_copy hx
    have hy' := registers_executed_copy hy
    rw [hvalue, hregisters, Registers.copied_refresh] at hx'
    refine hx'.trans ?_
    rw [hy']
  · intro a ha
    rw [ram_executed_copy hx, ram_executed_copy hy, hde, hvalue, Cells.get_set, Cells.get_set,
      hram a ha]

end Machine
end Z80Machine
