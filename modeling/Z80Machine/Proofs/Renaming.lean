import Z80Machine.Proofs.Disassembly
import Z80Machine.Proofs.Encoding
import Z80Machine.Proofs.Pointers

/-!
# Renaming pointer registers in instructions

A permutation of HL, IX and IY renames the registers of an instruction
(`Instruction.rename`).  The tables of the encoding differ by nothing else: the main table
for one pointer register is that for another with its entries renamed
(`mainTable_rename`, `indexed_rename`), except that a byte at HL and a byte at a distance from
an index register are not encoded alike.
-/

namespace Z80Machine

variable (π : Equiv.Perm Pointer)

/-- Renames the pointer registers of an address.  Only an index register goes with a distance;
where HL comes into its place the distance is lost. -/
def Address.rename : Address → Address
  | .pair name => .pair (name.rename π)
  | .indexed x d =>
      match π (.index x) with
      | .hl => .pair .hl
      | .index y => .indexed y d
  | .direct address => .direct address

/-- Renames the pointer registers of a place. -/
def Place.rename : Place → Place
  | .register name => .register (name.rename π)
  | .memory a => .memory (a.rename π)

/-- Renames the pointer registers of a source. -/
def Source.rename : Source → Source
  | .place p => .place (p.rename π)
  | .immediate value => .immediate value

/-- Renames the pointer registers of a source of a word. -/
def WordSource.rename : WordSource → WordSource
  | .register name => .register (name.rename π)
  | .immediate value => .immediate value
  | .memory address => .memory address

/-- Renames the pointer registers of an instruction. -/
def Instruction.rename : Instruction → Instruction
  | .ld target source => .ld (target.rename π) (source.rename π)
  | .ldWord target source => .ldWord (target.rename π) (source.rename π)
  | .storeWord address source => .storeWord address (source.rename π)
  | .push source => .push (source.rename π)
  | .pop target => .pop (target.rename π)
  | .exStack name => .exStack (name.rename π)
  | .operate op source => .operate op (source.rename π)
  | .inc target => .inc (target.rename π)
  | .dec target => .dec (target.rename π)
  | .addWord target source => .addWord (target.rename π) (source.rename π)
  | .adcWord source => .adcWord (source.rename π)
  | .sbcWord source => .sbcWord (source.rename π)
  | .incWord target => .incWord (target.rename π)
  | .decWord target => .decWord (target.rename π)
  | .shift op target copy => .shift op (target.rename π) (copy.map (·.rename π))
  | .bit n target => .bit n (target.rename π)
  | .res n target copy => .res n (target.rename π) (copy.map (·.rename π))
  | .set n target copy => .set n (target.rename π) (copy.map (·.rename π))
  | .jpRegister source => .jpRegister (source.rename π)
  | .inC target => .inC (target.map (·.rename π))
  | .outC source => .outC (source.map (·.rename π))
  | i => i

namespace Reader

variable {α β : Type}

@[simp] theorem map_done (f : α → β) (value : α) : (done value).map f = done (f value) := rfl

@[simp] theorem map_operand (f : α → β) (next : Byte → Reader α) :
    (operand next).map f = operand fun byte => (next byte).map f := rfl

@[simp] theorem map_word (f : α → β) (next : Word → Reader α) :
    (word next).map f = word fun value => (next value).map f := rfl

end Reader

namespace Encoding

open Instruction Reader
open Disassembly (ofCode?_eq_none_iff)

variable {π}

/-! ### Operands -/

@[simp] theorem pair_rename (p : Pointer) (code : Fin 4) :
    (p.pair code).rename π = (π p).pair code := by
  fin_cases code
  · rfl
  · rfl
  · exact rename_register π p
  · rfl

@[simp] theorem stackPair_rename (p : Pointer) (code : Fin 4) :
    (p.stackPair code).rename π = (π p).stackPair code := by
  fin_cases code
  · rfl
  · rfl
  · exact rename_register π p
  · rfl

/-- The halves of one pointer register stand where those of another stood. -/
theorem substitute_rename (p : Pointer) {code : Fin 8} {name : Reg8}
    (hname : Reg8.ofCode? code = some name) :
    (p.substitute name).rename π = (π p).substitute name := by
  by_cases hh : name = .h
  · rw [hh, Pointer.substitute_h, Pointer.substitute_h, rename_high]
  · by_cases hl : name = .l
    · rw [hl, Pointer.substitute_l, Pointer.substitute_l, rename_low]
    · rw [Pointer.substitute_of_ne p hh hl, Pointer.substitute_of_ne (π p) hh hl]
      revert hname hh hl
      fin_cases code <;> rintro ⟨⟩ <;> simp [Reg8.rename]

/-- A byte in memory is encoded in the same way at HL again or at an index register again. -/
theorem address_rename (hhl : π .hl = .hl) (p : Pointer) {next next' : Address → Reader Instruction}
    (hnext : ∀ a, (next a).map (·.rename π) = next' (a.rename π)) :
    (p.address next).map (·.rename π) = (π p).address next' := by
  cases p with
  | hl =>
      have h := hnext (.pair .hl)
      rw [Address.rename, Reg16.rename, hhl] at h
      rw [hhl]
      exact h
  | index x =>
      obtain ⟨y, hy⟩ := Pointer.exists_index hhl x
      rw [hy]
      refine congrArg Reader.operand (funext fun d => ?_)
      have h := hnext (.indexed x d)
      rwa [Address.rename, hy] at h

theorem place_rename (p : Pointer) {code : Fin 8} {next next' : Place → Reader Instruction}
    (hcode : π .hl = .hl ∨ code ≠ 6)
    (hnext : ∀ place, (next place).map (·.rename π) = next' (place.rename π)) :
    (p.place code next).map (·.rename π) = (π p).place code next' := by
  unfold Pointer.place
  split
  · next name hname =>
      rw [hnext, Place.rename, substitute_rename p hname]
  · next hnone =>
      have hsix := ofCode?_eq_none_iff.mp hnone
      exact address_rename (hcode.resolve_right (· hsix)) p fun a => hnext (.memory a)

/-- Where HL stays, so do all registers of the main bank. -/
theorem rename_of_ofCode? (hhl : π .hl = .hl) {code : Fin 8} {name : Reg8}
    (hname : Reg8.ofCode? code = some name) : name.rename π = name := by
  have h := substitute_rename (π := π) .hl hname
  rwa [hhl] at h

/-! ### The main table -/

/-- The opcodes of the main table with an operand in memory at HL, or at a distance from the
index register that takes its part. -/
def pointsToMemory (op : Byte) : Bool :=
  op ∈ [0x34, 0x35, 0x36, 0x46, 0x4E, 0x56, 0x5E, 0x66, 0x6E, 0x7E, 0x70, 0x71, 0x72, 0x73, 0x74,
    0x75, 0x77, 0x86, 0x8E, 0x96, 0x9E, 0xA6, 0xAE, 0xB6, 0xBE]

/-- The digits of the opcodes with an operand in memory. -/
theorem pointsToMemory_iff (op : Byte) :
    pointsToMemory op = true ↔
      (first op = 0 ∧ second op = 6 ∧ 4 ≤ third op ∧ third op ≤ 6) ∨
        (first op = 1 ∧ (second op = 6 ↔ third op ≠ 6)) ∨ (first op = 2 ∧ third op = 6) := by
  revert op
  decide

theorem mainRow0_rename (p : Pointer) (y z : Fin 8)
    (hmemory : π .hl = .hl ∨ ¬(y = 6 ∧ 4 ≤ z ∧ z ≤ 6)) :
    (mainRow0 p y z).map (·.rename π) = mainRow0 (π p) y z := by
  match z with
  | 0 => fin_cases y <;> rfl
  | 1 => cases hodd : odd y <;> simp [mainRow0, hodd, Instruction.rename, WordSource.rename]
  | 2 =>
      fin_cases y <;> simp [mainRow0, Instruction.rename, Place.rename, Source.rename,
        WordSource.rename, Address.rename]
  | 3 => cases hodd : odd y <;> simp [mainRow0, hodd, Instruction.rename]
  | 4 =>
      simp only [mainRow0]
      exact place_rename p (by simpa using hmemory) fun _ => rfl
  | 5 =>
      simp only [mainRow0]
      exact place_rename p (by simpa using hmemory) fun _ => rfl
  | 6 =>
      simp only [mainRow0]
      exact place_rename p (by simpa using hmemory) fun _ => rfl
  | 7 => rfl

theorem mainRow1_rename (p : Pointer) (y z : Fin 8)
    (hmemory : π .hl = .hl ∨ ¬(y = 6 ↔ z ≠ 6)) :
    (mainRow1 p y z).map (·.rename π) = mainRow1 (π p) y z := by
  unfold mainRow1
  split
  · rfl
  · next source hy hz =>
      have hhl : π .hl = .hl := by
        simpa [← ofCode?_eq_none_iff, hy, hz] using hmemory
      apply address_rename hhl
      intro a
      simp [Instruction.rename, Place.rename, Source.rename, rename_of_ofCode? hhl hz]
  · next target hy hz =>
      have hhl : π .hl = .hl := by
        simpa [← ofCode?_eq_none_iff, hy, hz] using hmemory
      apply address_rename hhl
      intro a
      simp [Instruction.rename, Place.rename, Source.rename, rename_of_ofCode? hhl hy]
  · next target source hy hz =>
      simp [Instruction.rename, Place.rename, Source.rename, substitute_rename p hy,
        substitute_rename p hz]

theorem mainRow2_rename (p : Pointer) (y z : Fin 8) (hmemory : π .hl = .hl ∨ z ≠ 6) :
    (mainRow2 p y z).map (·.rename π) = mainRow2 (π p) y z :=
  place_rename p hmemory fun _ => rfl

theorem mainRow3_rename (p : Pointer) (y z : Fin 8) :
    (mainRow3 p y z).map (·.rename π) = mainRow3 (π p) y z := by
  match z with
  | 0 => rfl
  | 1 => fin_cases y <;> simp [mainRow3, Instruction.rename, WordSource.rename]
  | 2 => rfl
  | 3 => fin_cases y <;> simp [mainRow3, Instruction.rename]
  | 4 => rfl
  | 5 => fin_cases y <;> simp [mainRow3, Instruction.rename]
  | 6 => rfl
  | 7 => rfl

theorem mainTable_rename (p : Pointer) {op : Byte}
    (hmemory : π .hl = .hl ∨ pointsToMemory op = false) :
    (mainTable p op).map (·.rename π) = mainTable (π p) op := by
  rw [← Bool.not_eq_true, pointsToMemory_iff] at hmemory
  unfold mainTable
  generalize first op = x at hmemory
  match x with
  | 0 => exact mainRow0_rename p _ _ (by simpa using hmemory)
  | 1 => exact mainRow1_rename p _ _ (by simpa using hmemory)
  | 2 => exact mainRow2_rename p _ _ (by simpa using hmemory)
  | 3 => exact mainRow3_rename p _ _

/-! ### Behind a prefix -/

theorem bitOperation_rename (op : Byte) (target : Place) (copy : Option Reg8) :
    (bitOperation op target copy).rename π =
      bitOperation op (target.rename π) (copy.map (·.rename π)) := by
  unfold bitOperation
  split <;> rfl

theorem indexedBits_rename (hhl : π .hl = .hl) {x y : Index} (hx : π (.index x) = .index y)
    (d op : Byte) : (indexedBits x d op).rename π = indexedBits y d op := by
  have hcopy : (Reg8.ofCode? (third op)).map (·.rename π) = Reg8.ofCode? (third op) := by
    cases h : Reg8.ofCode? (third op) with
    | none => rfl
    | some name => exact congrArg some (rename_of_ofCode? hhl h)
  rw [indexedBits, bitOperation_rename, hcopy, Place.rename, Address.rename, hx]
  rfl

/-- What follows the prefix of one index register is what follows that of another, renamed. -/
theorem indexed_rename (hhl : π .hl = .hl) {x y : Index} (hx : π (.index x) = .index y) :
    (indexed x).map (·.rename π) = indexed y := by
  have hopcode (op : Byte) :
      Reader.map (·.rename π)
          (if op = 0xCB then .operand fun d => .operand fun op => .done (indexedBits x d op)
            else mainTable (.index x) op) =
        if op = 0xCB then .operand fun d => .operand fun op => .done (indexedBits y d op)
          else mainTable (.index y) op := by
    split
    · simp only [map_operand, map_done, indexedBits_rename hhl hx]
    · rw [mainTable_rename (.index x) (.inl hhl), hx]
  refine congrArg Reader.peek (funext fun b? => ?_)
  cases b? with
  | none => rfl
  | some b =>
      dsimp only
      split
      · rfl
      · exact congrArg Reader.opcode (funext hopcode)

end Encoding
end Z80Machine
