import Mathlib.Data.Fintype.Basic
import Mathlib.Tactic.FinCases
import Mathlib.Tactic.MkIffOfInductiveProp
import Z80Machine.Proofs.Contents

/-!
# Regular entries, and how far they reach

For which bytes the tables give the two instructions that need care: one that is
undefined, and the one that enables interrupts.  All other entries are `Regular`.
Without looking ahead no encoding goes further than three bytes behind its first byte
(`fits_afterFirst_any`), or two behind a prefix and the byte after it
(`fits_afterIndex_any`).
-/

namespace Z80Machine

/-- The word registers that an encoding can name: not the program counter, and none of
the shadow bank. -/
def Reg16.isMain : Reg16 → Bool
  | .af' | .bc' | .de' | .hl' | .pc => false
  | _ => true

namespace Instruction

/-- The word register that an instruction names and changes. -/
def wordTarget? : Instruction → Option Reg16
  | .ldWord target _ | .pop target | .exStack target | .addWord target _ | .incWord target
  | .decWord target => some target
  | _ => none

/-- An instruction that is defined, does not enable interrupts, and changes no word
register that an encoding cannot name. -/
@[mk_iff] structure Regular (i : Instruction) : Prop where
  defined : ∀ opcode, i ≠ .undefined opcode
  ne_ei : i ≠ .ei
  target : ∀ name ∈ i.wordTarget?, name.isMain = true

end Instruction

namespace Encoding

open Instruction Reader

@[simp] theorem isMain_sp : Reg16.isMain .sp = true := rfl

@[simp] theorem isMain_register (p : Pointer) : p.register.isMain = true := by
  rcases p with _ | _ | _ <;> rfl

@[simp] theorem isMain_pair (p : Pointer) (code : Fin 4) : (p.pair code).isMain = true := by
  rcases p with _ | _ | _ <;> fin_cases code <;> rfl

@[simp] theorem isMain_stackPair (p : Pointer) (code : Fin 4) :
    (p.stackPair code).isMain = true := by
  rcases p with _ | _ | _ <;> fin_cases code <;> rfl

/-! ### The main table -/

attribute [local simp] regular_iff wordTarget?

/-- One opcode of the main table enables interrupts, and all others are regular. -/
theorem MainEntry.regular {p : Pointer} {x : Fin 4} {y z : Fin 8} {i : Instruction} {n : Nat}
    (h : MainEntry p x y z i n) (hei : ¬(x = 3 ∧ y = 7 ∧ z = 3)) : i.Regular := by
  cases h with
  | ei h => exact absurd h hei
  | _ => simp

/-- The digits of the opcode that enables interrupts. -/
theorem eq_ei_iff (op : Byte) : op = 0xFB ↔ first op = 3 ∧ second op = 7 ∧ third op = 3 := by
  revert op
  decide

theorem fits_mainTable (p : Pointer) {op : Byte} (hei : op ≠ 0xFB) :
    Fits Regular 2 (mainTable p op) := by
  rw [ne_eq, eq_ei_iff] at hei
  exact (entries_mainTable p op).fits fun _ _ h => ⟨h.le_two, h.regular hei⟩

/-! ### Bit operations -/

theorem regular_bitOperation (op : Byte) (target : Place) (copy : Option Reg8) :
    (bitOperation op target copy).Regular := by
  unfold bitOperation
  split <;> simp

theorem regular_bits (op : Byte) : (bits op).Regular := by
  unfold bits
  split <;> exact regular_bitOperation op _ none

theorem regular_indexedBits (x : Index) (d op : Byte) : (indexedBits x d op).Regular :=
  regular_bitOperation op _ _

/-! ### The table after `ED` -/

/-- The bytes after `ED` that name no instruction. -/
def isHole (op : Byte) : Bool :=
  op ≤ 0x3F || op == 0x77 || op == 0x7F || (0x80 ≤ op && op ≤ 0x9F) ||
    (0xA4 ≤ op && op ≤ 0xA7) || (0xAC ≤ op && op ≤ 0xAF) || (0xB4 ≤ op && op ≤ 0xB7) || 0xBC ≤ op

/-- The digits of the bytes that name no instruction. -/
theorem isHole_iff (op : Byte) :
    isHole op = true ↔ HoleAt (first op) (second op) (third op) := by
  rw [holeAt_iff]
  revert op
  decide

theorem extended_of_isHole {op : Byte} (h : isHole op = true) :
    extended op = .done (.undefined op) := by
  rw [isHole_iff, holeAt_iff] at h
  unfold extended
  generalize first op = x at h
  generalize second op = y at h
  generalize third op = z at h
  match x with
  | 0 => rfl
  | 1 =>
      -- the last column names six instructions and two holes
      obtain ⟨rfl, hy⟩ : z = 7 ∧ 6 ≤ y := by simpa using h
      fin_cases y <;> simp [extendedRow1] at hy ⊢
  | 2 =>
      -- the block instructions fill one quarter of the row
      have hyz : y < 4 ∨ 4 ≤ z := by simpa using h
      fin_cases y <;> fin_cases z <;> simp [extendedRow2, blockOperation?] at hyz ⊢
  | 3 => rfl

theorem ExtendedEntry.regular {x : Fin 4} {y z : Fin 8} {i : Instruction} {n : Nat}
    (h : ExtendedEntry x y z i n) (hhole : ¬HoleAt x y z) : i.Regular := by
  cases h with
  | undefined _ h => exact absurd h hhole
  | _ => simp

theorem fits_extended {op : Byte} (h : isHole op = false) : Fits Regular 2 (extended op) := by
  rw [← Bool.not_eq_true, isHole_iff] at h
  exact (entries_extended op).fits fun _ _ hentry => ⟨hentry.le_two, hentry.regular h⟩

/-! ### The first bytes -/

/-- What is read after a first byte. -/
def afterFirst (op : Byte) : Reader Instruction :=
  if op = 0xCB then .opcode fun op => .done (bits op)
  else if op = 0xED then .opcode extended
  else if op = 0xDD then indexed .ix
  else if op = 0xFD then indexed .iy
  else mainTable .hl op

/-- The index register that a first byte puts in the place of HL. -/
def index? (op : Byte) : Option Index :=
  if op = 0xDD then some .ix else if op = 0xFD then some .iy else none

theorem index?_eq_none_iff {op : Byte} : index? op = none ↔ op ≠ 0xDD ∧ op ≠ 0xFD := by
  unfold index?
  split <;> simp_all

/-- A byte that selects an index register is one of two. -/
theorem eq_of_index?_eq_some {op : Byte} {x : Index} (h : index? op = some x) :
    op = 0xDD ∨ op = 0xFD := by
  by_contra hnone
  rw [index?_eq_none_iff.mpr (not_or.mp hnone)] at h
  contradiction

/-- What is read after a `DD` or `FD` byte that stands before the byte `op`. -/
def afterIndex (x : Index) (op : Byte) : Reader Instruction :=
  if op = 0xCB then .operand fun d => .operand fun op => .done (indexedBits x d op)
  else mainTable (.index x) op

theorem afterFirst_of_index {op : Byte} {x : Index} (h : index? op = some x) :
    afterFirst op =
      .peek fun
        | none => .done .idlePrefix
        | some b => if overridesPrefix b then .done .idlePrefix else .opcode (afterIndex x) := by
  unfold index? at h
  unfold afterFirst
  split at h
  · next hdd =>
      obtain rfl : Index.ix = x := by simpa using h
      subst hdd
      rfl
  · split at h
    · next hfd =>
        obtain rfl : Index.iy = x := by simpa using h
        subst hfd
        rfl
    · simp at h

theorem fits_afterIndex (x : Index) {op : Byte} (hei : op ≠ 0xFB) :
    Fits Regular 2 (afterIndex x op) := by
  unfold afterIndex
  split
  · simp only [fits_operand, fits_done]
    exact fun d op => regular_indexedBits x d op
  · exact fits_mainTable (.index x) hei

/-- How far any instruction behind a prefix reaches. -/
theorem fits_afterIndex_any (x : Index) (op : Byte) : Fits (fun _ => True) 2 (afterIndex x op) := by
  by_cases hei : op = 0xFB
  · rw [hei]
    exact .done trivial
  · exact (fits_afterIndex x hei).mono (Nat.le_refl 2) fun _ _ => trivial

/-- A first byte that is not `DD` or `FD`, where an instruction is defined that does not
enable interrupts. -/
theorem fits_afterFirst {op : Byte} (hindex : index? op = none) (hed : op ≠ 0xED)
    (hei : op ≠ 0xFB) : Fits Regular 2 (afterFirst op) := by
  obtain ⟨hdd, hfd⟩ := index?_eq_none_iff.mp hindex
  unfold afterFirst
  split
  · exact .opcode fun op => .done (regular_bits op)
  · exact fits_mainTable .hl hei

/-- How far any instruction behind `ED` reaches. -/
theorem fits_extended_any (op : Byte) : Fits (fun _ => True) 2 (extended op) := by
  cases hhole : isHole op with
  | true =>
      rw [extended_of_isHole hhole]
      exact .done trivial
  | false => exact (fits_extended hhole).mono (Nat.le_refl 2) fun _ _ => trivial

/-- How far any instruction without a prefix reaches. -/
theorem fits_afterFirst_any {op : Byte} (hindex : index? op = none) :
    Fits (fun _ => True) 3 (afterFirst op) := by
  by_cases hed : op = 0xED
  · rw [hed]
    exact .opcode fits_extended_any
  · by_cases hei : op = 0xFB
    · rw [hei]
      exact .done trivial
    · exact (fits_afterFirst hindex hed hei).mono (by omega) fun _ _ => trivial

end Encoding

/-- The first byte decides how the others are read. -/
theorem Instruction.parse_reader (bytes : List Byte) :
    reader.parse bytes =
      (((Encoding.afterFirst (bytes.headD 0)).parse bytes.tail).1,
        ((Encoding.afterFirst (bytes.headD 0)).parse bytes.tail).2 + 1) := rfl

end Z80Machine
