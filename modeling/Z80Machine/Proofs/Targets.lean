import Z80Machine.Proofs.Entries
import Z80Machine.Proofs.Parts

/-!
# The registers that encodings name

An encoding in which HL, IX or IY is the pointer register names no other of the three, and no
register of the shadow bank (`Listed`).  So the pointer register, which the first byte selects,
tells which index register an instruction may write; and most of the other special parts of the
register file have one instruction each that writes them (`mayWrite_of_mem_parts`).
-/

namespace Z80Machine

/-- The part of the register file that a pointer register belongs to. -/
def Pointer.part : Pointer → Part
  | .hl => .main
  | .index .ix => .ix
  | .index .iy => .iy

/-- Whether a place is in memory or a register of the main bank or of the pointer register. -/
def Place.within (p : Pointer) : Place → Bool
  | .register name => name.part ∈ [.main, p.part]
  | .memory _ => true

namespace Instruction

/-- Whether the registers that an instruction names and changes are among those that encodings
name in its place when `p` is the pointer register. -/
def within (p : Pointer) : Instruction → Bool
  | .ld target _ | .inc target | .dec target => target.within p
  | .shift _ target copy | .res _ target copy | .set _ target copy =>
      target.within p && copy.all (·.part == .main)
  | .inC target => target.all (·.part == .main)
  | .ldWord target _ | .incWord target | .decWord target =>
      target ∈ [.bc, .de, .sp, p.register]
  | .pop target => target ∈ [.bc, .de, .af, p.register]
  | .exStack target | .addWord target _ => target == p.register
  | _ => true

/-- An instruction of the tables for the pointer register `p`, other than the one that loads R. -/
@[mk_iff] structure Listed (p : Pointer) (i : Instruction) : Prop where
  within : i.within p = true
  ne_storeR : i ≠ .storeControl .r

end Instruction

namespace Reader

variable {α : Type} {P : α → Prop}

/-- A reader that takes nothing but operands, and ends only in values with the property `P`. -/
def OperandsOnly (P : α → Prop) : Reader α → Prop
  | done value => P value
  | operand next => ∀ byte, (next byte).OperandsOnly P
  | opcode _ | peek _ => False

theorem TakesOperands.operandsOnly {Q : α → Nat → Prop} {r : Reader α} (h : r.TakesOperands Q)
    (hQP : ∀ value n, Q value n → P value) : r.OperandsOnly P := by
  induction r generalizing Q with
  | done value => exact hQP value 0 h
  | operand next ih => exact fun byte => ih byte (h byte) fun value n => hQP value (n + 1)
  | opcode next | peek next => exact h.elim

theorem OperandsOnly.ends {r : Reader α} (h : r.OperandsOnly P) : r.Ends P := by
  induction r with
  | done value => exact h
  | operand next ih => exact fun byte => ih byte (h byte)
  | opcode next | peek next => exact h.elim

end Reader

namespace Encoding

open Instruction Reader

variable {p : Pointer} {x : Fin 4} {y z : Fin 8} {i : Instruction} {place : Place} {n : Nat}

theorem part_of_ofCode? {code : Fin 8} {name : Reg8} (h : Reg8.ofCode? code = some name) :
    name.part = .main := by
  revert h
  fin_cases code <;> rintro ⟨⟩ <;> rfl

theorem part_substitute (p : Pointer) {name : Reg8} (h : name.part = .main) :
    (p.substitute name).part ∈ [.main, p.part] := by
  rcases p with _ | _ | _ <;>
    cases name <;> simp [Pointer.substitute, Pointer.part, Reg8.part] at h ⊢

theorem pair_cases (p : Pointer) (code : Fin 4) :
    p.pair code = .bc ∨ p.pair code = .de ∨ p.pair code = .sp ∨ p.pair code = p.register := by
  fin_cases code <;> simp [Pointer.pair]

theorem stackPair_cases (p : Pointer) (code : Fin 4) :
    p.stackPair code = .bc ∨ p.stackPair code = .de ∨ p.stackPair code = .af ∨
      p.stackPair code = p.register := by
  fin_cases code <;> simp [Pointer.stackPair]

theorem all_of_ofCode? (code : Fin 8) : (Reg8.ofCode? code).all (·.part == .main) = true := by
  fin_cases code <;> rfl

theorem Operand.within (h : Operand p place n) : place.within p = true := by
  cases h with
  | register hname => simpa [Place.within] using part_substitute p (part_of_ofCode? hname)
  | memory _ => rfl

/-! ### The main table -/

attribute [local simp] listed_iff Instruction.within pair_cases stackPair_cases

theorem MainEntry.listed (h : MainEntry p x y z i n) : i.Listed p := by
  cases h with
  | load hname _ => simp [Place.within, part_of_ofCode? hname]
  | copy hname _ => simpa [Place.within] using part_substitute p (part_of_ofCode? hname)
  | loadA _ => simp [Place.within, Reg8.part]
  | store _ _ | storeA _ => simp [Place.within]
  | loadImmediate h _ | inc h | dec h => simpa using h.within
  | _ => simp

theorem mainTable_listed (p : Pointer) (op : Byte) : (mainTable p op).OperandsOnly (Listed p) :=
  (entries_mainTable p op).operandsOnly fun _ _ h => h.listed

/-! ### Bit operations -/

theorem bitOperation_listed (p : Pointer) (op : Byte) {target : Place} {copy : Option Reg8}
    (htarget : target.within p = true) (hcopy : copy.all (·.part == .main) = true) :
    (bitOperation op target copy).Listed p := by
  unfold bitOperation
  split <;> simp [htarget, hcopy]

theorem bits_listed (op : Byte) : (bits op).Listed .hl := by
  unfold bits
  split
  · next name hname =>
      exact bitOperation_listed .hl op (by simp [Place.within, part_of_ofCode? hname]) rfl
  · exact bitOperation_listed .hl op rfl rfl

theorem indexedBits_listed (x : Index) (d op : Byte) : (indexedBits x d op).Listed (.index x) :=
  bitOperation_listed (.index x) op rfl (all_of_ofCode? (third op))

/-! ### The table after `ED` -/

theorem eq_storeR_iff (op : Byte) : op = 0x4F ↔ first op = 1 ∧ second op = 1 ∧ third op = 7 := by
  revert op
  decide

/-- The table after `ED` has the one entry that loads R. -/
theorem ExtendedEntry.listed (h : ExtendedEntry x y z i n) (hstoreR : ¬(x = 1 ∧ y = 1 ∧ z = 7)) :
    i.Listed .hl := by
  cases h with
  | storeR h => exact absurd h hstoreR
  | inC code => simp [all_of_ofCode?]
  | _ => simp

theorem extended_listed {op : Byte} (hstoreR : op ≠ 0x4F) :
    (extended op).OperandsOnly (Listed .hl) := by
  rw [ne_eq, eq_storeR_iff] at hstoreR
  exact (entries_extended op).operandsOnly fun _ _ h => h.listed hstoreR

/-! ### The first bytes -/

theorem afterIndex_listed (x : Index) (op : Byte) :
    (afterIndex x op).OperandsOnly (Listed (.index x)) := by
  unfold afterIndex
  split
  · exact fun d op => indexedBits_listed x d op
  · exact mainTable_listed (.index x) op

/-- A first byte that is not `DD`, `FD` or `ED`. -/
theorem afterFirst_listed {op : Byte} (hindex : index? op = none) (hed : op ≠ 0xED) :
    (afterFirst op).Ends (Listed .hl) := by
  obtain ⟨hdd, hfd⟩ := index?_eq_none_iff.mp hindex
  unfold afterFirst
  split
  · exact fun op => bits_listed op
  · exact (mainTable_listed .hl op).ends

end Encoding

namespace Machine

open Encoding

variable (m : Machine)

/-- The pointer register of the instruction at the program counter. -/
def pointer : Pointer :=
  match index? (m.codeByte 0) with
  | some x => .index x
  | none => .hl

/-- Whether the bytes at the program counter load R from the accumulator. -/
def AtStoreR : Prop := m.codeByte 0 = 0xED ∧ m.codeByte 1 = 0x4F

/-- Every instruction in memory is an entry of the tables for its pointer register, except for
the one that loads R. -/
theorem listed_or_storeR :
    m.instruction.Listed m.pointer ∨ (m.AtStoreR ∧ m.instruction = .storeControl .r) := by
  unfold pointer
  cases hindex : index? (m.codeByte 0) with
  | some x =>
      left
      rw [instruction]
      cases hover : overridesPrefix (m.codeByte 1) with
      | true =>
          rw [fetch_overridden hindex hover]
          exact ⟨rfl, Instruction.noConfusion⟩
      | false =>
          rw [fetch_indexed hindex hover]
          exact (afterIndex_listed x (m.codeByte 1)).ends.value_fetch _
  | none =>
      by_cases hed : m.codeByte 0 = 0xED
      · rw [instruction_of_ed hed]
        by_cases hstoreR : m.codeByte 1 = 0x4F
        · rw [hstoreR]
          exact .inr ⟨⟨hed, hstoreR⟩, rfl⟩
        · exact .inl ((extended_listed hstoreR).ends.value_fetch _)
      · rw [instruction, fetch_reader]
        exact .inl ((afterFirst_listed hindex hed).value_fetch _)

theorem within_instruction : m.instruction.within m.pointer = true := by
  rcases listed_or_storeR m with hlisted | ⟨-, hi⟩
  · exact hlisted.within
  · rw [hi]
    rfl

theorem atStoreR_of_instruction_eq {m : Machine} (h : m.instruction = .storeControl .r) :
    m.AtStoreR := by
  rcases listed_or_storeR m with hlisted | ⟨hat, -⟩
  · exact absurd h hlisted.ne_storeR
  · exact hat

end Machine

/-! ### Who writes what -/

namespace Instruction

/-- Whether an instruction is none of those that are made to change flags. -/
def isFlagNeutral : Instruction → Bool
  | .nop | .idlePrefix | .ld .. | .ldWord .. | .storeWord .. | .storeControl _ | .push _ | .exDeHl
  | .exx | .exStack _ | .incWord _ | .decWord _ | .jp .. | .jpRegister _ | .jr .. | .djnz _
  | .call .. | .ret _ | .rst _ | .reti | .retn | .res .. | .set .. | .inA _ | .outA _ | .outC _
  | .di | .ei | .im _ | .halt => true
  | .pop target => target != .af
  | _ => false

/-- Whether an instruction loads the stack pointer or counts it up or down. -/
def setsStackPointer : Instruction → Bool
  | .ldWord target _ | .incWord target | .decWord target => target == .sp
  | _ => false

/-- Whether an instruction pushes or pops a word, always or on a condition. -/
def usesStack : Instruction → Bool
  | .push _ | .pop _ | .call .. | .ret _ | .rst _ | .reti | .retn => true
  | _ => false

end Instruction

/-- Whether an instruction from the tables for the pointer register `p` can write a part of the
register file.  Nothing is said of the main bank, the program counter and the interrupt
flip-flops. -/
def Part.MayWrite (p : Pointer) (i : Instruction) : Part → Prop
  | .main | .pc | .iff => True
  | .flags => i.isFlagNeutral = false
  | .shadowAf => i = .exAf
  | .shadowPairs => i = .exx
  | .ix => p = .index .ix
  | .iy => p = .index .iy
  | .sp => (i.setsStackPointer || i.usesStack) = true
  | .i => i = .storeControl .i
  | .r => i = .storeControl .r
  | .im => ∃ mode, i = .im mode
  | .halted => i = .halt

namespace Instruction

variable {p : Pointer} {i : Instruction}

attribute [local simp] Part.MayWrite isFlagNeutral setsStackPointer usesStack Reg16.parts

theorem mayWrite_pointer (p : Pointer) (i : Instruction) : p.part.MayWrite p i := by
  rcases p with _ | _ | _ <;> simp [Pointer.part]

theorem mayWrite_register (p : Pointer) (i : Instruction) :
    ∀ q ∈ p.register.parts, q.MayWrite p i := by
  rcases p with _ | _ | _ <;> simp [Pointer.register, Index.register]

theorem mayWrite_place {target : Place} (h : target.within p = true) :
    ∀ q ∈ target.parts, q.MayWrite p i := by
  intro q hq
  cases target with
  | register name =>
      obtain rfl := List.mem_singleton.mp hq
      have hpart : name.part = .main ∨ name.part = p.part := by simpa [Place.within] using h
      rcases hpart with hmain | hpointer
      · rw [hmain]
        trivial
      · rw [hpointer]
        exact mayWrite_pointer p i
  | memory a => contradiction

theorem mayWrite_copy {copy : Option Reg8} (h : copy.all (·.part == .main) = true) :
    ∀ q ∈ (copy.map Reg8.part).toList, q.MayWrite p i := by
  intro q hq
  cases copy with
  | none => contradiction
  | some name =>
      obtain rfl := List.mem_singleton.mp hq
      have hmain : name.part = .main := by simpa using h
      rw [hmain]
      trivial

theorem mayWrite_placeWith {target : Place} {copy : Option Reg8}
    (h : (target.within p && copy.all (·.part == .main)) = true) :
    ∀ q ∈ target.partsWith copy, q.MayWrite p i := by
  obtain ⟨htarget, hcopy⟩ := Bool.and_eq_true_iff.mp h
  intro q hq
  rcases List.mem_append.mp hq with hq | hq
  · exact mayWrite_place htarget q hq
  · exact mayWrite_copy hcopy q hq

/-- Of the word registers that an encoding can name only the fourth needs a closer look. -/
theorem mayWrite_word {target fourth : Reg16} (h : target ∈ [.bc, .de, fourth, p.register])
    (hfourth : target = fourth → ∀ q ∈ target.parts, q.MayWrite p i) :
    ∀ q ∈ target.parts, q.MayWrite p i := by
  simp only [List.mem_cons, List.not_mem_nil, or_false] at h
  rcases h with rfl | rfl | hsame | rfl
  · simp
  · simp
  · exact hfourth hsame
  · exact mayWrite_register p i

/-- An instruction that an encoding can name writes a special part only if it is made for it. -/
theorem mayWrite_of_mem_parts (hi : i.within p = true) : ∀ q ∈ i.parts, q.MayWrite p i := by
  cases i with
  | ld target source => exact mayWrite_place hi
  | inc target | dec target => exact List.forall_mem_cons.mpr ⟨rfl, mayWrite_place hi⟩
  | shift op target copy => exact List.forall_mem_cons.mpr ⟨rfl, mayWrite_placeWith hi⟩
  | res n target copy | set n target copy => exact mayWrite_placeWith hi
  | inC target => exact List.forall_mem_cons.mpr ⟨rfl, mayWrite_copy hi⟩
  | ldWord target | incWord target | decWord target =>
      refine mayWrite_word (of_decide_eq_true hi) ?_
      rintro rfl
      simp
  | pop target =>
      refine List.forall_mem_cons.mpr ⟨rfl, mayWrite_word (of_decide_eq_true hi) ?_⟩
      rintro rfl
      simp
  | exStack target =>
      obtain rfl : target = p.register := eq_of_beq hi
      exact mayWrite_register p _
  | addWord target source =>
      obtain rfl : target = p.register := eq_of_beq hi
      exact List.forall_mem_cons.mpr ⟨rfl, mayWrite_register p _⟩
  | storeControl target => cases target <;> simp [Instruction.parts]
  | _ => simp [Instruction.parts]

end Instruction

namespace Machine

/-- An instruction in memory leaves alone the parts of the register file that it is not made to
write, apart from the program counter and R, which change while it is read. -/
theorem part_executed (m : Machine) {q : Part} (hq : q ∉ m.instruction.parts) (hpc : q ≠ .pc)
    (hr : q ≠ .r) : m.executed.registers.part q = m.registers.part q := by
  refine (part_execute m.ready m.instruction hq).trans ?_
  rw [registers_ready]
  cases q with
  | pc => exact absurd rfl hpc
  | r => exact absurd rfl hr
  | _ => rfl

theorem part_step {m : Machine} (hdue : m.due = none) {q : Part}
    (hq : ∀ i, m.Executes i → q ∉ i.parts) (hpc : q ≠ .pc) (hr : q ≠ .r) :
    m.step.2.registers.part q = m.registers.part q := by
  have hcases := step_cases m
  rw [serve_of_none hdue] at hcases
  rcases hcases with ⟨-, hstep⟩ | ⟨-, -, hstep⟩ | ⟨hrunning, -, hstep⟩
  · rw [hstep]
    cases q with
    | r => exact absurd rfl hr
    | _ => rfl
  · rw [hstep]
    rfl
  · rw [hstep]
    exact part_executed m (hq _ (executes_of_due_none hdue hrunning)) hpc hr

/-- What is seen to change in one part of the register file, by a step with no request pending
that succeeds or fails, has been written by the instruction that the step carries out. -/
theorem exists_writer_of_ne {α : Type} {m : Machine} (hdue : m.due = none) {q : Part}
    (view : Registers → α) (hview : ∀ s, view s = view (s.part q)) (hpc : q ≠ .pc) (hr : q ≠ .r)
    (hne : view m.step.2.registers ≠ view m.registers) :
    ∃ i, m.Executes i ∧ q ∈ i.parts ∧ q.MayWrite m.pointer i := by
  by_contra hnone
  apply hne
  rw [hview, hview m.registers, part_step hdue ?_ hpc hr]
  intro i hi hmem
  refine hnone ⟨i, hi, hmem, Instruction.mayWrite_of_mem_parts ?_ q hmem⟩
  obtain ⟨-, rfl⟩ := hi
  rw [serve_of_none hdue]
  exact within_instruction m

end Machine
end Z80Machine
