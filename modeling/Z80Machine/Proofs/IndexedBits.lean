import Z80Machine.Proofs.Agreement
import Z80Machine.Proofs.IndexedOperand

/-!
# Bit operations behind a prefix

Behind `DD CB` and `FD CB` the distance comes before the opcode, and neither byte counts as a
refreshed row.  What is done to the byte in memory is what `CB` alone does to the byte at HL, where
HL has the address of that byte: both are one function of the byte, the flags and the address
(`bitResult`, `execute_bitOperation`).  What the prefix adds is the copy of the result that the
register named by the opcode receives (`indexed_bits_like_hl`).
-/

namespace Z80Machine

namespace Encoding

/-- The opcode of the same bit operation on the byte at HL. -/
def atHl (op : Byte) : Byte := (op &&& 0xF8) ||| 6

/-- The register that receives a copy of what a bit operation behind a prefix puts into memory.  A
test puts nothing there. -/
def copyTarget? (op : Byte) : Option Reg8 :=
  if first op = 1 then none else Reg8.ofCode? (third op)

theorem isMain_of_copyTarget? (op : Byte) : ∀ name ∈ copyTarget? op, name.isMain = true := by
  intro name hname
  unfold copyTarget? at hname
  split at hname
  · contradiction
  · exact isMain_of_ofCode? hname

theorem digits_atHl (op : Byte) :
    first (atHl op) = first op ∧ second (atHl op) = second op ∧ third (atHl op) = 6 := by
  revert op
  decide

theorem bits_atHl (op : Byte) : bits (atHl op) = bitOperation op (.memory (.pair .hl)) none := by
  obtain ⟨hfirst, hsecond, hthird⟩ := digits_atHl op
  unfold bits bitOperation
  rw [hfirst, hsecond, hthird]
  rfl

/-- What a bit operation makes of a byte: the flags, and the byte that it puts back, if it puts one.
A test takes bits 5 and 3 of the flags from `source`. -/
def bitResult (op value : Byte) (f : Flags) (source : Byte) : Flags × Option Byte :=
  match first op with
  | 0 =>
      let r := Arithmetic.shift (.ofCode (second op)) value f
      (r.flags, some r.value)
  | 1 => (Arithmetic.testBit (second op) value f source, none)
  | 2 => (f, some (Arithmetic.resetBit (second op) value))
  | 3 => (f, some (Arithmetic.setBit (second op) value))

theorem bitResult_of_test {op : Byte} (htest : first op = 1) (value : Byte) (f : Flags)
    (source : Byte) : (bitResult op value f source).2 = none := by
  rw [bitResult, htest]

end Encoding

namespace Bus

/-- Reads a byte, and puts another in its place, if there is one. -/
def revise (b : Bus) (address : Word) (value : Option Byte) : Bus :=
  let b := (b.read address).2
  value.elim b (b.write address)

/-- What is there in the end. -/
theorem get_ram_revise (b : Bus) (address : Word) (value : Option Byte) :
    (b.revise address value).ram.get address = value.getD (b.ram.get address) := by
  cases value with
  | none => rfl
  | some value => exact Cells.get_set_self b.ram address value

theorem ram_revise (b : Bus) (address : Word) (value : Option Byte) :
    (b.revise address value).ram = b.ram.set address (value.getD (b.ram.get address)) := by
  cases value with
  | none => exact (Cells.set_get_self b.ram address).symm
  | some value => rfl

theorem since_revise (b : Bus) (address : Word) (value : Option Byte) :
    (b.revise address value).since b =
      .read address (b.ram.get address) :: (value.map (Access.write address)).toList := by
  cases value with
  | none => exact since_eq rfl
  | some value => exact since_eq rfl

end Bus

namespace Registers

/-- Puts a byte into a register, if one receives it. -/
def receive (s : Registers) (copy : Option Reg8) (value : Byte) : Registers :=
  copy.elim s fun name => s.write8 name value

/-- Neither the program counter nor R is a register that an encoding names. -/
theorem receive_of_main (s : Registers) {copy : Option Reg8}
    (hmain : ∀ name ∈ copy, name.isMain = true) (value : Byte) (pc : Word) (r : Byte) :
    { s with pc, r }.receive copy value = { s.receive copy value with pc, r } := by
  cases copy with
  | none => rfl
  | some name =>
      have hname := hmain name rfl
      cases name <;> first | rfl | contradiction

end Registers

namespace Machine

open Encoding

variable {m : Machine} {x : Index}

/-- A bit operation on a byte in memory sets the flags and puts its result back, and into a register
that receives a copy. -/
theorem execute_bitOperation (m : Machine) (op : Byte) (a : Address) (copy : Option Reg8)
    (hmain : ∀ name ∈ copy, name.isMain = true) :
    let value := m.bus.ram.get (m.resolve a)
    let r := bitResult op value m.registers.f (m.resolve a).high
    let s := m.registers.receive (if first op = 1 then none else copy) (r.2.getD value)
    (m.execute (bitOperation op (.memory a) copy)).registers = { s with f := r.1 } ∧
      (m.execute (bitOperation op (.memory a) copy)).bus = m.bus.revise (m.resolve a) r.2 := by
  unfold bitOperation bitResult
  cases copy with
  | none =>
      generalize first op = row
      match row with
      | 0 | 1 | 2 | 3 => exact ⟨rfl, rfl⟩
  | some name =>
      have hname := hmain name rfl
      generalize first op = row
      match row with
      | 0 | 1 => exact ⟨rfl, rfl⟩
      | 2 | 3 => cases name <;> first | exact ⟨rfl, rfl⟩ | contradiction

/-- What a bit operation on the byte at HL does to memory and the flags, with any address in HL. -/
theorem execute_bits_atHl (m : Machine) (op : Byte) (a : Word) :
    let r := bitResult op (m.bus.ram.get a) m.registers.f a.high
    let q := (m.setPair .hl a).execute (bits (atHl op))
    q.registers.f = r.1 ∧ q.bus = m.bus.revise a r.2 := by
  intro r q
  obtain ⟨hregisters, hbus⟩ := execute_bitOperation (m.setPair .hl a) op (.pair .hl) none
    fun _ hname => nomatch hname
  have haddress : (m.setPair .hl a).resolve (.pair .hl) = a :=
    m.registers.readPair_writePair_self .hl a
  rw [← bits_atHl, haddress] at hregisters hbus
  exact ⟨congrArg (fun s => s.f) hregisters, hbus⟩

/-! ### The step -/

/-- A bit operation behind a prefix, with the distance before the opcode. -/
theorem fetch_indexedBits (hindex : index? (m.codeByte 0) = some x) (hcb : m.codeByte 1 = 0xCB) :
    m.fetch Instruction.reader =
      ⟨indexedBits x (m.codeByte 2) (m.codeByte 3),
        [m.codeByte 0, m.codeByte 1, m.codeByte 2, m.codeByte 3],
        m.afterIndex.fetchByte.2.fetchByte.2⟩ := by
  have hover : overridesPrefix (m.codeByte 1) = false := by
    rw [hcb]
    rfl
  rw [fetch_indexed hindex hover, ← fst_fetchByte_afterIndex m,
    ← fst_fetchByte_fetchByte_afterIndex m, hcb]
  rfl

/-- What comes of a bit operation behind a prefix. -/
theorem executed_of_indexedBits (hindex : index? (m.codeByte 0) = some x)
    (hcb : m.codeByte 1 = 0xCB) :
    let a := m.indexedAddress x
    let op := m.codeByte 3
    let r := bitResult op (m.bus.ram.get a) m.registers.f a.high
    let s := m.registers.receive (copyTarget? op) (r.2.getD (m.bus.ram.get a))
    m.executed.registers =
        { s with f := r.1, pc := m.registers.pc + 4, r := m.registers.refresh.refresh.r } ∧
      m.executed.bus = m.ready.bus.revise a r.2 := by
  intro a op r s
  have hfetch := fetch_indexedBits hindex hcb
  have hready : m.ready.registers =
      { m.registers with pc := m.registers.pc + 4, r := m.registers.refresh.refresh.r } := by
    rw [registers_ready, ready, hfetch]
    rfl
  have ha : m.ready.resolve (.indexed x (m.codeByte 2)) = a := resolve_ready m x _
  have hinstruction : m.instruction = indexedBits x (m.codeByte 2) op := by
    rw [instruction, hfetch]
  obtain ⟨hregisters, hbus⟩ := execute_bitOperation m.ready op (.indexed x (m.codeByte 2))
    (Reg8.ofCode? (third op)) fun _ hname => isMain_of_ofCode? hname
  rw [← indexedBits, ← hinstruction, ha, ram_ready, hready] at hregisters hbus
  have hreceive := m.registers.receive_of_main (isMain_of_copyTarget? op)
    (r.2.getD (m.bus.ram.get a)) (m.registers.pc + 4) m.registers.refresh.refresh.r
  exact ⟨hregisters.trans (congrArg (fun s => { s with f := r.1 }) hreceive), hbus⟩

/-- An instruction that puts no byte back only reads. -/
theorem isRead_of_mem_revise {count : Nat} {a : Word} {access : Access}
    (h : access ∈ m.codeReads count ++ (m.bus.revise a none).since m.bus) :
    access.isRead = true := by
  rw [Bus.since_revise] at h
  rcases List.mem_append.mp h with hcode | hdata
  · exact isRead_of_mem_codeReads hcode
  · obtain rfl := List.mem_singleton.mp hdata
    rfl

/-- A bit operation behind a prefix does to memory and the flags what the operation without it does
with the address in HL.  Its result is also put into the register that the opcode names, and no
other register changes; H and L stay, unless one of them receives the copy.  The step reads its four
bytes and uses the bus like the operation at HL.  A test only reads. -/
theorem indexed_bits_like_hl (m : Machine) (x : Index) (hrunning : m.registers.halted = false)
    (hint : m.interruptPending = false) (hnmi : m.nmiPending = false)
    (hindex : index? (m.codeByte 0) = some x) (hcb : m.codeByte 1 = 0xCB) :
    let a := m.indexedAddress x
    let op := m.codeByte 3
    let q := (m.setPair .hl a).execute (bits (atHl op))
    m.Succeeds ∧ m.step.2.bus.ram = q.bus.ram ∧
      m.step.2.registers =
        { m.registers.receive (copyTarget? op) (q.bus.ram.get a) with
          f := q.registers.f
          pc := m.registers.pc + 4
          r := m.registers.refresh.refresh.r } ∧
      m.step.2.bus.since m.bus = m.codeReads 4 ++ q.bus.since m.bus ∧
      (first op = 1 →
        m.step.2.bus.ram = m.bus.ram ∧
          ∀ access ∈ m.step.2.bus.since m.bus, access.isRead = true) := by
  intro a op q
  obtain ⟨hsucceeds, hstep⟩ := succeeds_of_due_none (due_eq_none hint hnmi) hrunning
    (not_atHole_of_index hindex)
  obtain ⟨hregisters, hbus⟩ := executed_of_indexedBits hindex hcb
  obtain ⟨hflags, hq⟩ := execute_bits_atHl m op a
  have hram : m.step.2.bus.ram = q.bus.ram := by
    rw [hstep, hbus, hq, Bus.ram_revise, Bus.ram_revise, ram_ready]
  have hdata : m.executed.bus.since m.ready.bus = q.bus.since m.bus := by
    rw [hbus, hq, Bus.since_revise, Bus.since_revise, ram_ready]
  have hsince : m.step.2.bus.since m.bus = m.codeReads 4 ++ q.bus.since m.bus := by
    rw [hstep, since_executed, hdata, fetch_indexedBits hindex hcb]
    rfl
  refine ⟨hsucceeds, hram, ?_, hsince, ?_⟩
  · rw [hstep, hregisters, hflags, hq, Bus.get_ram_revise]
  · intro htest
    have hnone := bitResult_of_test htest (m.bus.ram.get a) m.registers.f a.high
    rw [hnone] at hq
    constructor
    · rw [hram, hq]
      rfl
    · rw [hsince, hq]
      exact fun access hmem => isRead_of_mem_revise hmem

/-- Rotates the byte below IY, with a copy to H, by an instruction across the end of memory. -/
def indexedRotate : Machine where
  registers := { pc := 0xFFFE, iy := 0x0010, h := 0x12 }
  bus.ram := (Store.load (.fill 0 16) 0xFFFE [0xFD, 0xCB, 0x80, 0x04]).load 0xFF90 [0x81]

theorem indexed_rotate_copies_to_h :
    indexedRotate.step.2.bus.ram.get 0xFF90 = 0x03 ∧ indexedRotate.step.2.registers.h = 0x03 ∧
      indexedRotate.step.2.registers.f.carry = true ∧ indexedRotate.step.2.registers.pc = 2 := by
  obtain ⟨-, hram, hregisters, -⟩ :=
    indexed_bits_like_hl indexedRotate .iy rfl rfl rfl (by decide) (by decide)
  rw [hram, hregisters]
  exact ⟨by decide, by decide, by decide, by decide⟩

end Machine
end Z80Machine
