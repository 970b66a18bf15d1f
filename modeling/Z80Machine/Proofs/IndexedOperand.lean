import Z80Machine.Proofs.Prefixes

/-!
# A byte in memory behind a prefix

The opcodes of the main table with a byte in memory as an operand (`pointsToMemory`) find it at HL,
or behind a prefix at a distance from the index register, and do the same with it.  What they do
is a `MemoryOperation`, which makes new registers and a new byte of the old ones, wherever the byte
is.  An opcode gives one operation for all pointer registers (`mainTable_of_ofOpcode?`), and the
byte registers that it names are those of the main bank also behind a prefix.
-/

namespace Z80Machine

/-- What the main table can do with a byte in memory. -/
inductive MemoryOperation where
  | inc
  | dec
  /-- Puts the operand of the instruction there. -/
  | fill
  /-- Puts a register there. -/
  | store (source : Reg8)
  /-- Puts it into a register. -/
  | load (target : Reg8)
  /-- Combines it with the accumulator. -/
  | operate (op : Operation)
  deriving DecidableEq

namespace MemoryOperation

open Encoding

/-- The operation with a given opcode. -/
def ofOpcode? (op : Byte) : Option MemoryOperation :=
  match first op with
  | 0 =>
      match second op, third op with
      | 6, 4 => some .inc
      | 6, 5 => some .dec
      | 6, 6 => some .fill
      | _, _ => none
  | 1 =>
      match Reg8.ofCode? (second op), Reg8.ofCode? (third op) with
      | none, some source => some (.store source)
      | some target, none => some (.load target)
      | none, none => none
      | some _, some _ => none
  | 2 =>
      match third op with
      | 6 => some (.operate (.ofCode (second op)))
      | _ => none
  | 3 => none

example : ofOpcode? 0x66 = some (.load .h) := by decide

/-- The instruction that does it at an address, with the operand `n`. -/
def instruction (o : MemoryOperation) (a : Address) (n : Byte) : Instruction :=
  match o with
  | .inc => .inc (.memory a)
  | .dec => .dec (.memory a)
  | .fill => .ld (.memory a) (.immediate n)
  | .store source => .ld (.memory a) (.place (.register source))
  | .load target => .ld (.register target) (.place (.memory a))
  | .operate op => .operate op (.place (.memory a))

/-- Reads the operand, if there is one, of the instruction at an address. -/
def reader (o : MemoryOperation) (a : Address) : Reader Instruction :=
  match o with
  | .fill => .operand fun n => .done (o.instruction a n)
  | _ => .done (o.instruction a 0)

/-- The number of operands beside the byte in memory. -/
def operands : MemoryOperation → Nat
  | .fill => 1
  | _ => 0

/-- The registers when it has been done to the byte `cell`. -/
def registers (o : MemoryOperation) (s : Registers) (cell : Byte) : Registers :=
  match o with
  | .inc => { s with f := (Arithmetic.incByte cell s.f).flags }
  | .dec => { s with f := (Arithmetic.decByte cell s.f).flags }
  | .fill | .store _ => s
  | .load target => s.write8 target cell
  | .operate op =>
      let r := op.apply s.a cell s.f
      { s with a := r.value, f := r.flags }

/-- What the byte `cell` becomes, where the operand is `n`. -/
def cell (o : MemoryOperation) (s : Registers) (cell n : Byte) : Byte :=
  match o with
  | .inc => (Arithmetic.incByte cell s.f).value
  | .dec => (Arithmetic.decByte cell s.f).value
  | .fill => n
  | .store source => s.read8 source
  | .load _ | .operate _ => cell

/-- The byte register that it names. -/
def name? : MemoryOperation → Option Reg8
  | .store name | .load name => some name
  | _ => none

/-! ### The table -/

theorem ofOpcode?_of_pointsToMemory {op : Byte} (h : pointsToMemory op = true) :
    ∃ o, ofOpcode? op = some o := by
  apply Option.isSome_iff_exists.mp
  revert op
  decide

variable {op : Byte} {o : MemoryOperation}

/-- Every operation is of one of three rows, with the digits given here. -/
theorem ofOpcode?_cases (h : ofOpcode? op = some o) :
    (first op = 0 ∧ second op = 6 ∧
        (third op = 4 ∧ o = .inc ∨ third op = 5 ∧ o = .dec ∨ third op = 6 ∧ o = .fill)) ∨
      (first op = 1 ∧
        ((∃ source, Reg8.ofCode? (second op) = none ∧ Reg8.ofCode? (third op) = some source ∧
            o = .store source) ∨
          ∃ target, Reg8.ofCode? (second op) = some target ∧ Reg8.ofCode? (third op) = none ∧
            o = .load target)) ∨
      (first op = 2 ∧ third op = 6 ∧ o = .operate (.ofCode (second op))) := by
  unfold ofOpcode? at h
  generalize first op = x at h
  generalize second op = y at h
  generalize third op = z at h
  match x with
  | 0 =>
      left
      refine ⟨rfl, ?_⟩
      dsimp only at h
      split at h
      · exact ⟨rfl, .inl ⟨rfl, (Option.some.inj h).symm⟩⟩
      · exact ⟨rfl, .inr (.inl ⟨rfl, (Option.some.inj h).symm⟩)⟩
      · exact ⟨rfl, .inr (.inr ⟨rfl, (Option.some.inj h).symm⟩)⟩
      · contradiction
  | 1 =>
      right
      left
      refine ⟨rfl, ?_⟩
      dsimp only at h
      split at h
      · next source hy hz => exact .inl ⟨source, hy, hz, (Option.some.inj h).symm⟩
      · next target hy hz => exact .inr ⟨target, hy, hz, (Option.some.inj h).symm⟩
      · contradiction
      · contradiction
  | 2 =>
      right
      right
      refine ⟨rfl, ?_⟩
      dsimp only at h
      split at h
      · exact ⟨rfl, (Option.some.inj h).symm⟩
      · contradiction
  | 3 => contradiction

/-- One opcode has an operand. -/
theorem operands_of_ofOpcode? (h : ofOpcode? op = some o) :
    o.operands = if op = 0x36 then 1 else 0 := by
  have hall : ∀ op : Byte, ∀ o ∈ ofOpcode? op, o.operands = if op = 0x36 then 1 else 0 := by decide
  exact hall op o h

/-- An opcode names a register of the main bank. -/
theorem isMain_of_ofOpcode? (h : ofOpcode? op = some o) : ∀ name ∈ o.name?, name.isMain = true := by
  intro name hname
  rcases ofOpcode?_cases h with ⟨-, -, ho⟩ | ⟨-, ho⟩ | ⟨-, -, rfl⟩
  · rcases ho with ⟨-, rfl⟩ | ⟨-, rfl⟩ | ⟨-, rfl⟩ <;> contradiction
  · rcases ho with ⟨source, -, hsource, rfl⟩ | ⟨target, htarget, -, rfl⟩
    · obtain rfl := Option.some.inj hname
      exact isMain_of_ofCode? hsource
    · obtain rfl := Option.some.inj hname
      exact isMain_of_ofCode? htarget
  · contradiction

/-- The entry of the main table for an opcode does one operation for all pointer registers. -/
theorem mainTable_of_ofOpcode? (h : ofOpcode? op = some o) (p : Pointer) :
    mainTable p op = p.address o.reader := by
  unfold mainTable
  rcases ofOpcode?_cases h with ⟨hfirst, hsecond, ho⟩ | ⟨hfirst, ho⟩ | ⟨hfirst, hthird, rfl⟩
  · rw [hfirst, hsecond]
    rcases ho with ⟨hthird, rfl⟩ | ⟨hthird, rfl⟩ | ⟨hthird, rfl⟩ <;> rw [hthird] <;> rfl
  · rw [hfirst]
    rcases ho with ⟨source, hy, hz, rfl⟩ | ⟨target, hy, hz, rfl⟩
    · simp only [mainRow1, hy, hz]
      rfl
    · simp only [mainRow1, hy, hz]
      rfl
  · rw [hfirst, hthird]
    rfl

/-! ### Registers that take no part -/

/-- Neither the program counter nor R takes part in an operation. -/
theorem registers_of_main (hmain : ∀ name ∈ o.name?, name.isMain = true) (s : Registers)
    (cell : Byte) (pc : Word) (r : Byte) :
    o.registers { s with pc, r } cell = { o.registers s cell with pc, r } := by
  cases o with
  | load target =>
      have htarget := hmain target rfl
      cases target <;> first | rfl | contradiction
  | inc | dec | fill | store | operate => rfl

theorem cell_of_main (hmain : ∀ name ∈ o.name?, name.isMain = true) (s : Registers)
    (cell n : Byte) (pc : Word) (r : Byte) :
    o.cell { s with pc, r } cell n = o.cell s cell n := by
  cases o with
  | store source =>
      have hsource := hmain source rfl
      cases source <;> first | rfl | contradiction
  | inc | dec | fill | load | operate => rfl

end MemoryOperation

namespace Machine

open Encoding MemoryOperation

variable {m : Machine} {o : MemoryOperation} {x : Index}

/-- The second machine is the first when it has done an operation to the byte at the address `a`,
with the operand `n`, in an instruction of `length` bytes of which the first `rows` are opcodes. -/
structure Performs (m m' : Machine) (o : MemoryOperation) (a : Word) (n : Byte)
    (length rows : Nat) : Prop where
  registers : m'.registers =
    { o.registers m.registers (m.bus.ram.get a) with
      pc := m.registers.pc + BitVec.ofNat 16 length
      r := (Registers.refresh^[rows] m.registers).r }
  ram : m'.bus.ram = m.bus.ram.set a (o.cell m.registers (m.bus.ram.get a) n)

/-- An instruction does its operation to the byte that it finds. -/
theorem execute_instruction (m : Machine) (o : MemoryOperation) (a : Address) (n : Byte) :
    (m.execute (o.instruction a n)).registers =
        o.registers m.registers (m.bus.ram.get (m.resolve a)) ∧
      (m.execute (o.instruction a n)).bus.ram =
        m.bus.ram.set (m.resolve a) (o.cell m.registers (m.bus.ram.get (m.resolve a)) n) := by
  cases o with
  | inc | dec | fill | store => exact ⟨rfl, rfl⟩
  | load target => exact ⟨rfl, (Cells.set_get_self m.bus.ram _).symm⟩
  | operate op => exact ⟨rfl, (Cells.set_get_self m.bus.ram _).symm⟩

/-- Reading the operand of an instruction. -/
theorem fetch_operand (m : Machine) (o : MemoryOperation) (a : Address) :
    (m.fetch (o.reader a)).value = o.instruction a (m.bus.ram.get m.registers.pc) ∧
      (m.fetch (o.reader a)).bytes.length = o.operands ∧
      (m.fetch (o.reader a)).machine.registers.r = m.registers.r := by
  cases o <;> exact ⟨rfl, rfl, rfl⟩

/-- Reading and carrying out an instruction does its operation. -/
theorem performs_executed {a : Address} {n : Byte} {length rows : Nat}
    (hmain : ∀ name ∈ o.name?, name.isMain = true)
    (hinstruction : m.instruction = o.instruction a n)
    (hlength : (m.fetch Instruction.reader).bytes.length = length)
    (hr : m.ready.registers.r = (Registers.refresh^[rows] m.registers).r)
    (ha : m.ready.resolve a = m.resolve a) :
    m.Performs m.executed o (m.resolve a) n length rows := by
  have hready := registers_ready m
  rw [hlength, hr] at hready
  obtain ⟨hregisters, hram⟩ := execute_instruction m.ready o a n
  rw [ram_ready, ha, hready] at hregisters hram
  rw [registers_of_main hmain] at hregisters
  rw [cell_of_main hmain] at hram
  rw [← hinstruction] at hregisters hram
  exact ⟨hregisters, hram⟩

/-! ### Without a prefix -/

theorem unprefixed_of_ofOpcode? {op : Byte} (ho : ofOpcode? op = some o) :
    op ∉ [0xCB, 0xDD, 0xED, 0xFD] := by
  intro hmem
  simp only [List.mem_cons, List.not_mem_nil, or_false] at hmem
  rcases hmem with rfl | rfl | rfl | rfl <;> contradiction

/-- The instruction of an opcode without a prefix, with the byte at HL. -/
theorem performs_of_opcode (ho : ofOpcode? (m.codeByte 0) = some o) :
    m.Performs m.executed o m.registers.hl (m.codeByte 1) (1 + o.operands) 1 := by
  have hfetch := fetch_of_main rfl (unprefixed_of_ofOpcode? ho)
  rw [mainTable_of_ofOpcode? ho] at hfetch
  obtain ⟨hvalue, hlength, hr⟩ := fetch_operand m.afterFirst o (.pair .hl)
  apply performs_executed (a := .pair .hl) (isMain_of_ofOpcode? ho)
  · rw [instruction, hfetch]
    exact hvalue
  · rw [hfetch, List.length_cons, Nat.add_comm]
    exact congrArg (1 + ·) hlength
  · rw [ready, hfetch]
    exact hr
  · unfold resolve
    rw [registers_ready]
    rfl

/-! ### With a prefix -/

/-- The address at a distance from an index register, as given by the third byte at the program
counter. -/
def indexedAddress (m : Machine) (x : Index) : Word :=
  (m.registers.readPair x.register).offset (m.codeByte 2)

/-- The first byte behind the prefix and the opcode is the third. -/
theorem fst_fetchByte_afterIndex (m : Machine) : m.afterIndex.fetchByte.1 = m.codeByte 2 := by
  rw [← codeByte_of_pc (pc_afterIndex m) rfl 0, codeByte_zero]
  rfl

theorem fst_fetchByte_fetchByte_afterIndex (m : Machine) :
    m.afterIndex.fetchByte.2.fetchByte.1 = m.codeByte 3 := by
  have hpc : m.afterIndex.fetchByte.2.registers.pc = m.registers.pc + BitVec.ofNat 16 3 := by
    rw [registers_fetchByte, pc_afterIndex, BitVec.add_assoc]
    rfl
  rw [← codeByte_of_pc hpc rfl 0, codeByte_zero]
  rfl

/-- What is read of an instruction behind a prefix, from its third byte on. -/
theorem fetch_indexedAddress (m : Machine) (x : Index) (next : Address → Reader Instruction) :
    m.afterIndex.fetch ((Pointer.index x).address next) =
      { m.afterIndex.fetchByte.2.fetch (next (.indexed x (m.codeByte 2))) with
        bytes := m.codeByte 2 ::
          (m.afterIndex.fetchByte.2.fetch (next (.indexed x (m.codeByte 2)))).bytes } := by
  rw [← fst_fetchByte_afterIndex]
  rfl

theorem resolve_ready (m : Machine) (x : Index) (d : Byte) :
    m.ready.resolve (.indexed x d) = m.resolve (.indexed x d) := by
  unfold resolve
  rw [registers_ready]
  cases x <;> rfl

/-- The instruction of an opcode behind a prefix, with the byte at a distance from the index
register. -/
theorem performs_of_index (hindex : index? (m.codeByte 0) = some x)
    (ho : ofOpcode? (m.codeByte 1) = some o) :
    m.Performs m.executed o (m.indexedAddress x) (m.codeByte 3) (3 + o.operands) 2 := by
  have hop := unprefixed_of_ofOpcode? ho
  have hfetch := fetch_indexed hindex (overridesPrefix_of_main hop)
  rw [afterIndex_of_main x hop, mainTable_of_ofOpcode? ho, fetch_indexedAddress] at hfetch
  obtain ⟨hvalue, hlength, hr⟩ :=
    fetch_operand m.afterIndex.fetchByte.2 o (.indexed x (m.codeByte 2))
  rw [← fst_fetchByte, fst_fetchByte_fetchByte_afterIndex] at hvalue
  apply performs_executed (a := .indexed x (m.codeByte 2)) (isMain_of_ofOpcode? ho)
  · exact (congrArg Fetched.value hfetch).trans hvalue
  · rw [hfetch]
    dsimp only [List.length_cons]
    rw [hlength]
    omega
  · exact (congrArg (·.machine.registers.r) hfetch).trans hr
  · exact resolve_ready m x _

/-- A prefix before an opcode with a byte in memory at HL puts the byte at a distance from the index
register in its place, and nothing else: the step with the prefix does to that byte, to the
accumulator, the flags and the register that the opcode names what a step without the prefix does to
the byte at HL and to them.  In particular H and L are not replaced by the halves of the index
register, and the operand stands behind the distance. -/
theorem indexed_operand_like_hl (m : Machine) (x : Index) (hrunning : m.registers.halted = false)
    (hint : m.interruptPending = false) (hnmi : m.nmiPending = false)
    (hindex : index? (m.codeByte 0) = some x) (hop : pointsToMemory (m.codeByte 1) = true) :
    m.Succeeds ∧
      ∃ o, ofOpcode? (m.codeByte 1) = some o ∧
        m.Performs m.step.2 o (m.indexedAddress x) (m.codeByte 3)
          (if m.codeByte 1 = 0x36 then 4 else 3) 2 ∧
        ∀ plain : Machine, plain.registers.halted = false → plain.interruptPending = false →
          plain.nmiPending = false → plain.codeByte 0 = m.codeByte 1 →
          plain.Succeeds ∧
            plain.Performs plain.step.2 o plain.registers.hl (plain.codeByte 1)
              (if m.codeByte 1 = 0x36 then 2 else 1) 1 := by
  obtain ⟨o, ho⟩ := ofOpcode?_of_pointsToMemory hop
  have hoperands := operands_of_ofOpcode? ho
  obtain ⟨hsucceeds, hstep⟩ := succeeds_of_due_none (due_eq_none hint hnmi) hrunning
    (not_atHole_of_index hindex)
  refine ⟨hsucceeds, o, ho, ?_, ?_⟩
  · have hperforms := performs_of_index hindex ho
    rw [hoperands, apply_ite (3 + ·)] at hperforms
    rw [hstep]
    exact hperforms
  · intro plain hrunning' hint' hnmi' hcode
    rw [← hcode] at ho hoperands ⊢
    have hhole : ¬plain.AtHole := by
      rintro ⟨hed, -⟩
      rw [hed] at ho
      contradiction
    obtain ⟨hsucceeds', hstep'⟩ := succeeds_of_due_none (due_eq_none hint' hnmi') hrunning' hhole
    have hperforms := performs_of_opcode ho
    rw [hoperands, apply_ite (1 + ·)] at hperforms
    rw [hstep']
    exact ⟨hsucceeds', hperforms⟩

/-- Loads H from a distance below IY, by an instruction across the end of memory. -/
def indexedLoad : Machine where
  registers := { pc := 0xFFFE, iy := 0x0010 }
  bus.ram := (Store.load (.fill 0 16) 0xFFFE [0xFD, 0x66, 0x80]).load 0xFF90 [0x5A]

/-- Loads H from HL. -/
def plainLoad : Machine where
  registers := { pc := 0x8000, h := 0x90 }
  bus.ram := (Store.load (.fill 0 16) 0x8000 [0x66]).load 0x9000 [0x5A]

theorem indexed_load_like_plain :
    indexedLoad.step.2.registers.h = 0x5A ∧ indexedLoad.step.2.registers.iy = 0x0010 ∧
      indexedLoad.step.2.registers.pc = 1 ∧ plainLoad.step.2.registers.h = 0x5A := by
  obtain ⟨-, o, ho, hindexed, hplain⟩ :=
    indexed_operand_like_hl indexedLoad .iy rfl rfl rfl (by decide) (by decide)
  obtain rfl : MemoryOperation.load .h = o := Option.some.inj ho
  obtain ⟨-, hplain⟩ := hplain plainLoad rfl rfl rfl (by decide)
  rw [hindexed.registers, hplain.registers]
  exact ⟨by decide, by decide, by decide, by decide⟩

end Machine
end Z80Machine
