import Z80Machine.Proofs.Stepping

/-!
# The entries of the encoding tables

A closer look at the instructions that the tables give.  All but three kinds of them
are `Ordinary`: they name no byte register but those of the main bank and the halves
of the index registers, and they neither halt, nor return from a maskable interrupt,
nor load R into the accumulator.  The bytes at the program counter tell which of the
four kinds an instruction is (`instruction_cases`).
-/

namespace Z80Machine

/-- The byte registers that an encoding can name. -/
def Reg8.isMain : Reg8 → Bool
  | .f | .i | .r => false
  | _ => true

/-- The byte register that a place is, if it is one. -/
def Place.name? : Place → Option Reg8
  | .register name => some name
  | .memory _ => none

/-- The byte register that a source is, if it is one. -/
def Source.name? : Source → Option Reg8
  | .place p => p.name?
  | .immediate _ => none

namespace Instruction

/-- The byte registers that an instruction names. -/
def byteNames : Instruction → List Reg8
  | .ld target source => target.name?.toList ++ source.name?.toList
  | .operate _ source => source.name?.toList
  | .inc target | .dec target | .bit _ target => target.name?.toList
  | .shift _ target copy | .res _ target copy | .set _ target copy =>
      target.name?.toList ++ copy.toList
  | .inC name? | .outC name? => name?.toList
  | _ => []

/-- An instruction whose byte registers an encoding can name, and that is none of the
three that are told apart here. -/
@[mk_iff] structure Ordinary (i : Instruction) : Prop where
  names : ∀ name ∈ i.byteNames, name.isMain = true
  ne_halt : i ≠ .halt
  ne_reti : i ≠ .reti
  ne_loadR : i ≠ .loadControl .r

end Instruction

namespace Reader

variable {α : Type}

/-- Every value at which a reader can end has the property `P`. -/
def Ends (P : α → Prop) : Reader α → Prop
  | done value => P value
  | opcode next => ∀ byte, (next byte).Ends P
  | operand next => ∀ byte, (next byte).Ends P
  | peek next => ∀ byte?, (next byte?).Ends P

variable {P : α → Prop}

@[simp] theorem ends_done {value : α} : (done value).Ends P ↔ P value := Iff.rfl

@[simp] theorem ends_operand {next : Byte → Reader α} :
    (operand next).Ends P ↔ ∀ byte, (next byte).Ends P := Iff.rfl

@[simp] theorem ends_word {next : Word → Reader α} :
    (word next).Ends P ↔ ∀ low high, (next (.ofBytes high low)).Ends P := Iff.rfl

theorem Ends.value_fetch {r : Reader α} (h : r.Ends P) (m : Machine) : P (m.fetch r).value := by
  induction r generalizing m with
  | done value => exact h
  | opcode next ih => exact ih _ (h _) m.refresh.fetchByte.2
  | operand next ih => exact ih _ (h _) m.fetchByte.2
  | peek next ih => exact ih _ (h _) (m.read m.registers.pc).2

theorem TakesOperands.ends {Q : α → Nat → Prop} {r : Reader α} (h : r.TakesOperands Q)
    (hQP : ∀ value n, Q value n → P value) : r.Ends P := by
  induction r generalizing Q with
  | done value => exact hQP value 0 h
  | operand next ih => exact fun byte => ih byte (h byte) fun value n => hQP value (n + 1)
  | opcode next | peek next => exact h.elim

theorem Fits.ends {Q : α → Prop} {n : Nat} {r : Reader α} (h : r.Fits P n)
    (hPQ : ∀ value, P value → Q value) : r.Ends Q := by
  induction h with
  | done hvalue => exact hPQ _ hvalue
  | opcode _ ih => exact ih
  | operand _ ih => exact ih

end Reader

namespace Encoding

open Instruction Reader

@[simp] theorem isMain_substitute (p : Pointer) {name : Reg8} (h : name.isMain = true) :
    (p.substitute name).isMain = true := by
  rcases p with _ | _ | _ <;> cases name <;> first | rfl | exact h

theorem isMain_of_ofCode? {code : Fin 8} {name : Reg8} (h : Reg8.ofCode? code = some name) :
    name.isMain = true := by
  revert h
  fin_cases code <;> rintro ⟨⟩ <;> rfl

variable {P : Instruction → Prop} {p : Pointer} {x : Fin 4} {y z : Fin 8} {i : Instruction}
  {place : Place} {n : Nat}

/-- A place is in memory or a byte register that an encoding can name. -/
theorem Operand.isMain (h : Operand p place n) : ∀ name ∈ place.name?, name.isMain = true := by
  cases h with
  | register hname =>
      intro name' hmem
      obtain rfl := Option.mem_some_iff.mp hmem
      exact isMain_substitute p (isMain_of_ofCode? hname)
  | memory _ => exact fun _ hmem => nomatch hmem

/-! ### The main table -/

attribute [local simp] ordinary_iff byteNames Place.name? Source.name?

/-- One opcode of the main table halts, and all others are ordinary. -/
theorem MainEntry.ordinary (h : MainEntry p x y z i n) (hhalt : ¬(x = 1 ∧ y = 6 ∧ z = 6)) :
    i.Ordinary := by
  have ha : Reg8.isMain .a = true := rfl
  cases h with
  | halt h => exact absurd h hhalt
  | load hname _ | store hname _ => simpa using isMain_of_ofCode? hname
  | copy htarget hsource =>
      have htarget := isMain_substitute p (isMain_of_ofCode? htarget)
      have hsource := isMain_substitute p (isMain_of_ofCode? hsource)
      simp [htarget, hsource]
  | loadImmediate h _ | inc h | dec h | operate _ h => simpa using h.isMain
  | _ => simp [ha]

/-- The digits of the opcode that halts. -/
theorem eq_halt_iff (op : Byte) : op = 0x76 ↔ first op = 1 ∧ second op = 6 ∧ third op = 6 := by
  revert op
  decide

theorem ends_mainTable (p : Pointer) {op : Byte} (hhalt : op ≠ 0x76) :
    (mainTable p op).Ends Ordinary := by
  rw [ne_eq, eq_halt_iff] at hhalt
  exact (entries_mainTable p op).ends fun _ _ h => h.ordinary hhalt

/-! ### Bit operations -/

theorem ordinary_bitOperation (op : Byte) {target : Place} {copy : Option Reg8}
    (htarget : ∀ name ∈ target.name?, name.isMain = true)
    (hcopy : ∀ name ∈ copy, name.isMain = true) : (bitOperation op target copy).Ordinary := by
  have hnames : ∀ name ∈ target.name?.toList ++ copy.toList, name.isMain = true := by
    intro name hmem
    rcases List.mem_append.mp hmem with h | h
    · exact htarget name (by simpa using h)
    · exact hcopy name (by simpa using h)
  unfold bitOperation
  split
  · exact ⟨hnames, Instruction.noConfusion, Instruction.noConfusion, Instruction.noConfusion⟩
  · exact ⟨by simpa using htarget, Instruction.noConfusion, Instruction.noConfusion,
      Instruction.noConfusion⟩
  · exact ⟨hnames, Instruction.noConfusion, Instruction.noConfusion, Instruction.noConfusion⟩
  · exact ⟨hnames, Instruction.noConfusion, Instruction.noConfusion, Instruction.noConfusion⟩

theorem ordinary_bits (op : Byte) : (bits op).Ordinary := by
  unfold bits
  split
  · next name hname =>
      exact ordinary_bitOperation op (by simpa using isMain_of_ofCode? hname) (by simp)
  · exact ordinary_bitOperation op (by simp) (by simp)

theorem ordinary_indexedBits (x : Index) (d op : Byte) : (indexedBits x d op).Ordinary :=
  ordinary_bitOperation op (by simp) fun _ hname => isMain_of_ofCode? hname

/-! ### The table after `ED` -/

/-- The bytes after `ED` that return from a maskable interrupt. -/
def isReti (op : Byte) : Bool := op == 0x4D || op == 0x5D || op == 0x6D || op == 0x7D

theorem isReti_iff (op : Byte) :
    isReti op = true ↔ first op = 1 ∧ third op = 5 ∧ odd (second op) = true := by
  revert op
  decide

theorem eq_loadR_iff (op : Byte) : op = 0x5F ↔ first op = 1 ∧ second op = 3 ∧ third op = 7 := by
  revert op
  decide

theorem extended_of_isReti {op : Byte} (h : isReti op = true) : extended op = .done .reti := by
  obtain ⟨hfirst, hthird, hodd⟩ := (isReti_iff op).mp h
  simp [extended, hfirst, hthird, extendedRow1, hodd]

theorem ExtendedEntry.ordinary (h : ExtendedEntry x y z i n)
    (hreti : ¬(x = 1 ∧ z = 5 ∧ odd y = true)) (hloadR : ¬(x = 1 ∧ y = 3 ∧ z = 7)) :
    i.Ordinary := by
  cases h with
  | reti h => exact absurd h hreti
  | loadR h => exact absurd h hloadR
  | inC code | outC code =>
      have hmain : ∀ name ∈ Reg8.ofCode? code, name.isMain = true := fun _ => isMain_of_ofCode?
      simpa using hmain
  | _ => simp

theorem ends_extended {op : Byte} (hreti : isReti op = false) (hloadR : op ≠ 0x5F) :
    (extended op).Ends Ordinary := by
  rw [← Bool.not_eq_true, isReti_iff] at hreti
  rw [ne_eq, eq_loadR_iff] at hloadR
  exact (entries_extended op).ends fun _ _ h => h.ordinary hreti hloadR

/-! ### The first bytes -/

theorem ends_afterIndex (x : Index) {op : Byte} (hhalt : op ≠ 0x76) :
    (afterIndex x op).Ends Ordinary := by
  unfold afterIndex
  split
  · exact fun d op => ordinary_indexedBits x d op
  · exact ends_mainTable (.index x) hhalt

/-- What follows a prefix is read behind it, or nothing is. -/
theorem ends_indexed {x : Index} (hidle : P .idlePrefix)
    (hafter : ∀ op, (afterIndex x op).Ends P) : (indexed x).Ends P := by
  intro b?
  cases b? with
  | none => exact hidle
  | some b =>
      dsimp only
      split
      · exact hidle
      · exact hafter

/-- A first byte that is not `DD`, `FD` or `ED`. -/
theorem ends_afterFirst {op : Byte} (hindex : index? op = none) (hed : op ≠ 0xED)
    (hhalt : op ≠ 0x76) : (afterFirst op).Ends Ordinary := by
  obtain ⟨hdd, hfd⟩ := index?_eq_none_iff.mp hindex
  unfold afterFirst
  split
  · exact fun op => ordinary_bits op
  · exact ends_mainTable .hl hhalt

end Encoding

namespace Machine

open Encoding Reader

variable {m : Machine}

/-! ### The instruction in memory -/

/-- Whether an opcode of the main table is at the program counter, alone or behind a `DD` or
`FD` byte. -/
def AtOpcode (m : Machine) (op : Byte) : Prop :=
  m.codeByte 0 = op ∨ ((m.codeByte 0 = 0xDD ∨ m.codeByte 0 = 0xFD) ∧ m.codeByte 1 = op)

/-- Whether the bytes at the program counter return from a maskable interrupt, in one of the
four ways to encode it. -/
def AtAnyReti (m : Machine) : Prop := m.codeByte 0 = 0xED ∧ isReti (m.codeByte 1) = true

/-- Whether the bytes at the program counter load R into the accumulator. -/
def AtLoadR (m : Machine) : Prop := m.codeByte 0 = 0xED ∧ m.codeByte 1 = 0x5F

theorem atHalt_iff_of_index {x : Index} (hindex : index? (m.codeByte 0) = some x) :
    m.AtOpcode 0x76 ↔ m.codeByte 1 = 0x76 :=
  opcode_iff_of_index rfl hindex

theorem atHalt_iff_of_index_none (hindex : index? (m.codeByte 0) = none) :
    m.AtOpcode 0x76 ↔ m.codeByte 0 = 0x76 :=
  opcode_iff_of_index_none hindex

theorem not_atHalt_of_ed (hed : m.codeByte 0 = 0xED) : ¬m.AtOpcode 0x76 := by
  unfold AtOpcode
  rw [hed]
  simp

/-- Behind `ED` the second byte tells what the instruction is. -/
theorem instruction_of_ed (hed : m.codeByte 0 = 0xED) :
    m.instruction = (m.afterFirst.refresh.fetchByte.2.fetch (extended (m.codeByte 1))).value := by
  rw [instruction, fetch_reader, hed]
  rfl

/-- Every instruction in memory halts, returns from a maskable interrupt, loads R into the
accumulator or is ordinary. -/
theorem instruction_cases (m : Machine) :
    (m.AtOpcode 0x76 ∧ ¬m.AtAnyReti ∧ m.instruction = .halt) ∨
      (¬m.AtOpcode 0x76 ∧ m.AtAnyReti ∧ m.instruction = .reti) ∨
      (¬m.AtOpcode 0x76 ∧ ¬m.AtAnyReti ∧ m.AtLoadR ∧ m.instruction = .loadControl .r) ∨
      (¬m.AtOpcode 0x76 ∧ ¬m.AtAnyReti ∧ m.instruction.Ordinary) := by
  by_cases hed : m.codeByte 0 = 0xED
  · have hhalt := not_atHalt_of_ed hed
    rw [instruction_of_ed hed, AtAnyReti, and_iff_right hed]
    cases hreti : isReti (m.codeByte 1) with
    | true =>
        rw [extended_of_isReti hreti]
        exact .inr (.inl ⟨hhalt, rfl, rfl⟩)
    | false =>
        by_cases hloadR : m.codeByte 1 = 0x5F
        · refine .inr (.inr (.inl ⟨hhalt, Bool.noConfusion, ⟨hed, hloadR⟩, ?_⟩))
          rw [hloadR]
          rfl
        · exact .inr (.inr (.inr ⟨hhalt, Bool.noConfusion,
            (ends_extended hreti hloadR).value_fetch _⟩))
  · have hreti : ¬m.AtAnyReti := fun h => hed h.1
    rw [instruction]
    cases hindex : index? (m.codeByte 0) with
    | some x =>
        rw [atHalt_iff_of_index hindex]
        cases hover : overridesPrefix (m.codeByte 1) with
        | true =>
            -- the prefix stands alone and does nothing
            have hhalt : m.codeByte 1 ≠ 0x76 := by
              intro h
              simp [h, overridesPrefix] at hover
            have hordinary : Instruction.idlePrefix.Ordinary := by
              simp [Instruction.ordinary_iff, Instruction.byteNames]
            rw [fetch_overridden hindex hover]
            exact .inr (.inr (.inr ⟨hhalt, hreti, hordinary⟩))
        | false =>
            rw [fetch_indexed hindex hover]
            by_cases hhalt : m.codeByte 1 = 0x76
            · rw [hhalt]
              exact .inl ⟨rfl, hreti, rfl⟩
            · exact .inr (.inr (.inr ⟨hhalt, hreti, (ends_afterIndex x hhalt).value_fetch _⟩))
    | none =>
        rw [atHalt_iff_of_index_none hindex, fetch_reader]
        by_cases hhalt : m.codeByte 0 = 0x76
        · rw [hhalt]
          exact .inl ⟨rfl, hreti, rfl⟩
        · exact .inr (.inr (.inr ⟨hhalt, hreti, (ends_afterFirst hindex hed hhalt).value_fetch _⟩))

theorem instruction_eq_halt_iff : m.instruction = .halt ↔ m.AtOpcode 0x76 := by
  rcases instruction_cases m with ⟨hat, -, hi⟩ | ⟨hat, -, hi⟩ | ⟨hat, -, -, hi⟩ | ⟨hat, -, hi⟩
  · exact iff_of_true hi hat
  · exact iff_of_false (by rw [hi]; exact Instruction.noConfusion) hat
  · exact iff_of_false (by rw [hi]; exact Instruction.noConfusion) hat
  · exact iff_of_false hi.ne_halt hat

theorem instruction_eq_reti_iff : m.instruction = .reti ↔ m.AtAnyReti := by
  rcases instruction_cases m with ⟨-, hat, hi⟩ | ⟨-, hat, hi⟩ | ⟨-, hat, -, hi⟩ | ⟨-, hat, hi⟩
  · exact iff_of_false (by rw [hi]; exact Instruction.noConfusion) hat
  · exact iff_of_true hi hat
  · exact iff_of_false (by rw [hi]; exact Instruction.noConfusion) hat
  · exact iff_of_false hi.ne_reti hat

theorem atLoadR_of_instruction_eq (h : m.instruction = .loadControl .r) : m.AtLoadR := by
  rcases instruction_cases m with ⟨-, -, hi⟩ | ⟨-, -, hi⟩ | ⟨-, -, hat, -⟩ | ⟨-, -, hi⟩
  · rw [hi] at h
    contradiction
  · rw [hi] at h
    contradiction
  · exact hat
  · exact absurd h hi.ne_loadR

/-- No instruction in memory names a byte register outside the main bank and the index
registers. -/
theorem isMain_of_mem_byteNames {name : Reg8} (h : name ∈ m.instruction.byteNames) :
    name.isMain = true := by
  rcases instruction_cases m with ⟨-, -, hi⟩ | ⟨-, -, hi⟩ | ⟨-, -, -, hi⟩ | ⟨-, -, hi⟩
  · rw [hi] at h
    contradiction
  · rw [hi] at h
    contradiction
  · rw [hi] at h
    contradiction
  · exact hi.names name h

theorem instruction_eq_ei_iff : m.instruction = .ei ↔ m.AtEi := by
  rw [instruction]
  rcases value_fetch_cases m with ⟨-, hat, hi⟩ | ⟨-, hat, hi⟩ | ⟨-, hat, hi⟩
  · exact iff_of_false (by rw [hi]; exact Instruction.noConfusion) hat
  · exact iff_of_true hi hat
  · exact iff_of_false hi.ne_ei hat

end Machine
end Z80Machine
