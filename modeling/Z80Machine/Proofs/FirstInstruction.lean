import Z80Machine.Proofs.Encoding

/-!
# The first instruction in memory

What a machine finds at its program counter.  `fetch_reader`, `fetch_overridden` and
`fetch_indexed` say how the first byte and, behind a prefix, the second decide what
is read next; all other statements follow from these three cases.  The value read is
sorted by the first two bytes (`value_fetch_cases`), and the bytes are one to four,
are taken in order, and mean the same in any list that holds them
(`length_bytes_reader`, `history_reader`, `parse_dump_reader`).
-/

namespace Z80Machine
namespace Machine

open Encoding Reader

/-- The byte in memory at a distance from the program counter. -/
def codeByte (m : Machine) (n : Nat) : Byte := m.bus.ram.get (m.registers.pc + BitVec.ofNat 16 n)

@[simp] theorem codeByte_zero (m : Machine) :
    m.codeByte 0 = m.bus.ram.get m.registers.pc := by
  simp [codeByte]

/-- Seen from `k` bytes further on. -/
theorem codeByte_of_pc {m m' : Machine} {k : Nat}
    (hpc : m'.registers.pc = m.registers.pc + BitVec.ofNat 16 k) (hram : m'.bus.ram = m.bus.ram)
    (n : Nat) : m'.codeByte n = m.codeByte (k + n) := by
  rw [codeByte, codeByte, hram, hpc, BitVec.add_assoc, ← BitVec.ofNat_add]

/-- Whether the bytes at the program counter name no instruction. -/
def AtHole (m : Machine) : Prop := m.codeByte 0 = 0xED ∧ isHole (m.codeByte 1) = true

/-- Whether the bytes at the program counter enable interrupts. -/
def AtEi (m : Machine) : Prop :=
  m.codeByte 0 = 0xFB ∨ ((m.codeByte 0 = 0xDD ∨ m.codeByte 0 = 0xFD) ∧ m.codeByte 1 = 0xFB)

/-! ### The three cases -/

/-- The machine that has taken a first byte. -/
def afterFirst (m : Machine) : Machine := m.refresh.fetchByte.2

/-- The machine that has looked at the byte behind a prefix. -/
def afterLook (m : Machine) : Machine := (m.afterFirst.read m.afterFirst.registers.pc).2

/-- The machine that has taken the byte behind a prefix. -/
def afterIndex (m : Machine) : Machine := m.afterLook.refresh.fetchByte.2

theorem pc_afterIndex (m : Machine) :
    m.afterIndex.registers.pc = m.registers.pc + BitVec.ofNat 16 2 :=
  Word.add_one_add_ofNat m.registers.pc 1

theorem fetch_reader (m : Machine) :
    m.fetch Instruction.reader =
      { m.afterFirst.fetch (Encoding.afterFirst (m.codeByte 0)) with
        bytes := m.codeByte 0 ::
          (m.afterFirst.fetch (Encoding.afterFirst (m.codeByte 0))).bytes } := by
  rw [codeByte_zero]
  rfl

theorem fetch_peek (m : Machine) (next : Option Byte → Reader Instruction) :
    m.afterFirst.fetch (.peek next) = m.afterLook.fetch (next (some (m.codeByte 1))) := rfl

/-- A prefix that the next byte overrides. -/
theorem fetch_overridden {m : Machine} {x : Index} (hindex : index? (m.codeByte 0) = some x)
    (hover : overridesPrefix (m.codeByte 1) = true) :
    m.fetch Instruction.reader = ⟨.idlePrefix, [m.codeByte 0], m.afterLook⟩ := by
  rw [fetch_reader, afterFirst_of_index hindex, fetch_peek]
  simp only [hover, if_true]
  rfl

/-- A prefix with the instruction behind it. -/
theorem fetch_indexed {m : Machine} {x : Index} (hindex : index? (m.codeByte 0) = some x)
    (hover : overridesPrefix (m.codeByte 1) = false) :
    m.fetch Instruction.reader =
      { m.afterIndex.fetch (Encoding.afterIndex x (m.codeByte 1)) with
        bytes := m.codeByte 0 :: m.codeByte 1 ::
          (m.afterIndex.fetch (Encoding.afterIndex x (m.codeByte 1))).bytes } := by
  rw [fetch_reader, afterFirst_of_index hindex, fetch_peek]
  simp only [hover]
  rfl

/-- An instruction behind `ED` without operands. -/
theorem fetch_extended {m : Machine} {i : Instruction} (hed : m.codeByte 0 = 0xED)
    (hop : extended (m.codeByte 1) = .done i) :
    m.fetch Instruction.reader =
      ⟨i, [m.codeByte 0, m.codeByte 1], m.afterFirst.refresh.fetchByte.2⟩ := by
  have hfetch : m.fetch Instruction.reader =
      { m.afterFirst.refresh.fetchByte.2.fetch (extended (m.codeByte 1)) with
        bytes := m.codeByte 0 :: m.codeByte 1 ::
          (m.afterFirst.refresh.fetchByte.2.fetch (extended (m.codeByte 1))).bytes } := by
    rw [fetch_reader, hed]
    rfl
  rw [hfetch, hop]
  rfl

/-- An instruction of one byte. -/
theorem fetch_single {m : Machine} {i : Instruction}
    (hop : Encoding.afterFirst (m.codeByte 0) = .done i) :
    m.fetch Instruction.reader = ⟨i, [m.codeByte 0], m.afterFirst⟩ := by
  rw [fetch_reader, hop]
  rfl

/-- A prefix is one of two bytes. -/
theorem not_atHole_of_index {m : Machine} {x : Index} (hindex : index? (m.codeByte 0) = some x) :
    ¬m.AtHole := by
  rintro ⟨hed, -⟩
  rw [hed] at hindex
  exact absurd hindex (by decide +revert)

/-- Behind a prefix the second byte counts as the opcode. -/
theorem opcode_iff_of_index {m : Machine} {x : Index} {op : Byte} (hop : index? op = none)
    (hindex : index? (m.codeByte 0) = some x) :
    (m.codeByte 0 = op ∨ ((m.codeByte 0 = 0xDD ∨ m.codeByte 0 = 0xFD) ∧ m.codeByte 1 = op)) ↔
      m.codeByte 1 = op := by
  constructor
  · rintro (h | h)
    · rw [h, hop] at hindex
      contradiction
    · exact h.2
  · exact fun h => .inr ⟨eq_of_index?_eq_some hindex, h⟩

theorem opcode_iff_of_index_none {m : Machine} {op : Byte}
    (hindex : index? (m.codeByte 0) = none) :
    (m.codeByte 0 = op ∨ ((m.codeByte 0 = 0xDD ∨ m.codeByte 0 = 0xFD) ∧ m.codeByte 1 = op)) ↔
      m.codeByte 0 = op := by
  obtain ⟨hdd, hfd⟩ := index?_eq_none_iff.mp hindex
  exact or_iff_left fun h => h.1.elim hdd hfd

theorem atEi_iff_of_index {m : Machine} {x : Index} (hindex : index? (m.codeByte 0) = some x) :
    m.AtEi ↔ m.codeByte 1 = 0xFB :=
  opcode_iff_of_index rfl hindex

theorem atEi_iff_of_index_none {m : Machine} (hindex : index? (m.codeByte 0) = none) :
    m.AtEi ↔ m.codeByte 0 = 0xFB :=
  opcode_iff_of_index_none hindex

/-- What is undefined does not enable interrupts. -/
theorem not_atEi_of_atHole {m : Machine} (h : m.AtHole) : ¬m.AtEi := by
  unfold AtEi
  rw [h.1]
  simp

/-- Every instruction in memory is undefined, enables interrupts or is regular. -/
theorem value_fetch_cases (m : Machine) :
    (m.AtHole ∧ ¬m.AtEi ∧ (m.fetch Instruction.reader).value = .undefined (m.codeByte 1)) ∨
      (¬m.AtHole ∧ m.AtEi ∧ (m.fetch Instruction.reader).value = .ei) ∨
      (¬m.AtHole ∧ ¬m.AtEi ∧ (m.fetch Instruction.reader).value.Regular) := by
  cases hindex : index? (m.codeByte 0) with
  | some x =>
      have hhole := not_atHole_of_index hindex
      rw [atEi_iff_of_index hindex]
      cases hover : overridesPrefix (m.codeByte 1) with
      | true =>
          -- the prefix stands alone and does nothing
          have hei : m.codeByte 1 ≠ 0xFB := fun h => by simp [h, overridesPrefix] at hover
          rw [fetch_overridden hindex hover]
          exact .inr (.inr ⟨hhole, hei, by simp [Instruction.regular_iff, Instruction.wordTarget?]⟩)
      | false =>
          rw [fetch_indexed hindex hover]
          by_cases hei : m.codeByte 1 = 0xFB
          · rw [hei]
            exact .inr (.inl ⟨hhole, rfl, rfl⟩)
          · exact .inr (.inr ⟨hhole, hei, value_fetch_of_fits _ (fits_afterIndex x hei)⟩)
  | none =>
      rw [atEi_iff_of_index_none hindex, fetch_reader]
      by_cases hed : m.codeByte 0 = 0xED
      · -- behind `ED` only the second byte matters
        have hei : m.codeByte 0 ≠ 0xFB := by
          rw [hed]
          decide
        have hvalue : (m.afterFirst.fetch (Encoding.afterFirst (m.codeByte 0))).value =
            (m.afterFirst.refresh.fetchByte.2.fetch (extended (m.codeByte 1))).value := by
          rw [hed]
          rfl
        rw [AtHole, hvalue]
        cases hhole : isHole (m.codeByte 1) with
        | true =>
            rw [extended_of_isHole hhole]
            exact .inl ⟨⟨hed, rfl⟩, hei, rfl⟩
        | false =>
            refine .inr (.inr ⟨?_, hei, value_fetch_of_fits _ (fits_extended hhole)⟩)
            exact fun h => Bool.noConfusion h.2
      · have hhole : ¬m.AtHole := fun h => hed h.1
        by_cases hei : m.codeByte 0 = 0xFB
        · rw [hei]
          exact .inr (.inl ⟨hhole, rfl, rfl⟩)
        · exact .inr (.inr ⟨hhole, hei, value_fetch_of_fits _ (fits_afterFirst hindex hed hei)⟩)

/-! ### The bytes -/

/-- What the processor reads to find an instruction of `count` bytes: the bytes in order,
and the one behind a prefix twice. -/
def codeReads (m : Machine) (count : Nat) : List Access :=
  let first := m.bus.ram.reads m.registers.pc 1
  let look := if (index? (m.codeByte 0)).isSome then m.bus.ram.reads (m.registers.pc + 1) 1 else []
  first ++ look ++ m.bus.ram.reads (m.registers.pc + 1) (count - 1)

theorem codeReads_of_index {m : Machine} {x : Index} (hindex : index? (m.codeByte 0) = some x)
    (n : Nat) :
    m.codeReads (n + 1) =
      m.bus.ram.reads m.registers.pc 1 ++ m.bus.ram.reads (m.registers.pc + 1) 1 ++
        m.bus.ram.reads (m.registers.pc + 1) n := by
  unfold codeReads
  rw [hindex]
  rfl

theorem codeReads_of_index_none {m : Machine} (hindex : index? (m.codeByte 0) = none) (n : Nat) :
    m.codeReads (n + 1) = m.bus.ram.reads m.registers.pc (n + 1) := by
  unfold codeReads
  rw [hindex]
  rfl

theorem length_bytes_reader (m : Machine) :
    1 ≤ (m.fetch Instruction.reader).bytes.length ∧
      (m.fetch Instruction.reader).bytes.length ≤ 4 := by
  cases hindex : index? (m.codeByte 0) with
  | some x =>
      cases hover : overridesPrefix (m.codeByte 1) with
      | true =>
          rw [fetch_overridden hindex hover]
          simp
      | false =>
          have hlength := length_bytes_fetch_le m.afterIndex (fits_afterIndex_any x (m.codeByte 1))
          rw [fetch_indexed hindex hover]
          simp only [List.length_cons]
          omega
  | none =>
      have hlength := length_bytes_fetch_le m.afterFirst (fits_afterFirst_any hindex)
      rw [fetch_reader]
      simp only [List.length_cons]
      omega

theorem history_reader (m : Machine) :
    (m.fetch Instruction.reader).machine.bus.history =
      (m.codeReads (m.fetch Instruction.reader).bytes.length).reverse ++ m.bus.history := by
  cases hindex : index? (m.codeByte 0) with
  | some x =>
      cases hover : overridesPrefix (m.codeByte 1) with
      | true =>
          rw [fetch_overridden hindex hover, List.length_singleton, codeReads_of_index hindex 0]
          rfl
      | false =>
          -- the byte behind the prefix has been looked at before it is taken
          have hrest := history_fetch m.afterIndex (fits_afterIndex_any x (m.codeByte 1))
          rw [fetch_indexed hindex hover, List.length_cons, codeReads_of_index hindex,
            List.length_cons, List.reverse_append, List.append_assoc, Store.reads,
            List.reverse_cons, List.append_assoc]
          exact hrest
  | none =>
      have hrest := history_fetch m.afterFirst (fits_afterFirst_any hindex)
      rw [fetch_reader, List.length_cons, codeReads_of_index_none hindex, Store.reads,
        List.reverse_cons, List.append_assoc]
      exact hrest

/-- Any list of the bytes that are taken, and perhaps more, reads like memory. -/
theorem parse_dump_reader (m : Machine) {count : Nat}
    (hcount : (m.fetch Instruction.reader).bytes.length ≤ count) :
    Instruction.reader.parse (m.bus.ram.dump m.registers.pc count) =
      ((m.fetch Instruction.reader).value, (m.fetch Instruction.reader).bytes.length) := by
  obtain ⟨count, rfl⟩ : ∃ k, count = k + 1 :=
    Nat.exists_eq_add_of_le' ((length_bytes_reader m).1.trans hcount)
  rw [Store.dump, ← codeByte_zero, Instruction.parse_reader, List.headD_cons, List.tail_cons]
  have hsecond (k : Nat) : m.bus.ram.dump (m.registers.pc + 1) (k + 1) =
      m.codeByte 1 :: m.bus.ram.dump (m.registers.pc + 1 + 1) k := rfl
  cases hindex : index? (m.codeByte 0) with
  | some x =>
      rw [afterFirst_of_index hindex, parse_peek]
      cases hover : overridesPrefix (m.codeByte 1) with
      | true =>
          rw [fetch_overridden hindex hover]
          cases count with
          | zero => rfl
          | succ count =>
              rw [hsecond]
              simp only [List.head?_cons, hover, if_true]
              rfl
      | false =>
          rw [fetch_indexed hindex hover] at hcount ⊢
          simp only [List.length_cons] at hcount
          obtain ⟨count, rfl⟩ : ∃ k, count = k + 1 :=
            Nat.exists_eq_add_of_le' (Nat.le_of_succ_le_succ (by omega : 1 + 1 ≤ count + 1))
          have hrest := parse_dump_of_fits m.afterIndex (fits_afterIndex_any x (m.codeByte 1))
            (by omega : _ ≤ count)
          rw [hsecond]
          simp only [List.head?_cons, hover]
          exact congrArg (fun p => (p.1, p.2 + 1 + 1)) hrest
  | none =>
      rw [fetch_reader] at hcount ⊢
      have hrest := parse_dump_of_fits m.afterFirst (fits_afterFirst_any hindex)
        (Nat.le_of_succ_le_succ hcount)
      exact congrArg (fun p => (p.1, p.2 + 1)) hrest

end Machine
end Z80Machine
