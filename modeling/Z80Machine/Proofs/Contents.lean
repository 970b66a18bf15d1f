import Mathlib.Data.Fintype.Basic
import Mathlib.Tactic.FinCases
import Mathlib.Tactic.MkIffOfInductiveProp
import Z80Machine.Instruction.Encoding
import Z80Machine.Proofs.Reading

/-!
# The contents of the encoding tables

Which instructions the tables can give, and how many operand bytes each takes.  The main table
gives a `MainEntry` for the digits of its opcode (`entries_mainTable`), the table after `ED` an
`ExtendedEntry` (`entries_extended`).  An entry tells its instruction apart as far as the
instruction matters: the names of registers and places, and the digits where only one opcode
gives the instruction.  So what all instructions have in common is proved by cases on the
entries, and nothing else needs to go through the rows.
-/

namespace Z80Machine

namespace Reader

variable {α : Type}

/-- A reader that takes nothing but operands, and ends only in a value that has the property `P`
together with the number of operands taken. -/
def TakesOperands (P : α → Nat → Prop) : Reader α → Prop
  | done value => P value 0
  | operand next => ∀ byte, (next byte).TakesOperands fun value n => P value (n + 1)
  | opcode _ | peek _ => False

variable {P : α → Nat → Prop} {r : Reader α}

/-- Reading comes to an end. -/
theorem TakesOperands.exists_value (h : r.TakesOperands P) : ∃ value n, P value n := by
  induction r generalizing P with
  | done value => exact ⟨value, 0, h⟩
  | operand next ih =>
      obtain ⟨value, n, hvalue⟩ := ih 0 (h 0)
      exact ⟨value, n + 1, hvalue⟩
  | opcode next | peek next => exact h.elim

theorem TakesOperands.fits {Q : α → Prop} {k : Nat} (h : r.TakesOperands P)
    (hP : ∀ value n, P value n → n ≤ k ∧ Q value) : r.Fits Q k := by
  induction r generalizing P k with
  | done value => exact .done (hP value 0 h).2
  | operand next ih =>
      cases k with
      | zero =>
          -- some value is reached behind this operand
          obtain ⟨value, n, hvalue⟩ := TakesOperands.exists_value (h 0)
          exact absurd (hP value (n + 1) hvalue).1 (Nat.not_succ_le_zero n)
      | succ k =>
          exact .operand fun byte => ih byte (h byte) fun value n hvalue =>
            ⟨Nat.le_of_succ_le_succ (hP value (n + 1) hvalue).1, (hP value (n + 1) hvalue).2⟩
  | opcode next | peek next => exact h.elim

end Reader

namespace Encoding

open Instruction Reader

/-! ### Places -/

/-- A byte in memory that the pointer register `p` gives, with the number of operands that it
takes. -/
inductive Cell (p : Pointer) : Address → Nat → Prop
  | pair (h : p = .hl) : Cell p (.pair .hl) 0
  | indexed {x : Index} (h : p = .index x) (d : Byte) : Cell p (.indexed x d) 1

/-- A byte in memory whose address does not depend on the pointer register, with the number of
operands that it takes. -/
inductive FixedCell : Address → Nat → Prop
  | bc : FixedCell (.pair .bc) 0
  | de : FixedCell (.pair .de) 0
  | direct (nn : Word) : FixedCell (.direct nn) 2

/-- A place with a three-bit code, with the number of operands that it takes. -/
inductive Operand (p : Pointer) : Place → Nat → Prop
  | register {code : Fin 8} {name : Reg8} (h : Reg8.ofCode? code = some name) :
      Operand p (.register (p.substitute name)) 0
  | memory {a : Address} {n : Nat} (h : Cell p a n) : Operand p (.memory a) n

variable {p : Pointer} {x : Fin 4} {y z : Fin 8} {i : Instruction} {place : Place} {a : Address}
  {n : Nat}

theorem Cell.le_one (h : Cell p a n) : n ≤ 1 := by
  cases h <;> decide

theorem FixedCell.le_two (h : FixedCell a n) : n ≤ 2 := by
  cases h <;> decide

theorem Operand.le_one (h : Operand p place n) : n ≤ 1 := by
  cases h with
  | register _ => exact Nat.zero_le 1
  | memory ha => exact ha.le_one

section

variable {P : Instruction → Nat → Prop}

theorem takes_address {next : Address → Reader Instruction}
    (h : ∀ a n, Cell p a n → (next a).TakesOperands fun i k => P i (n + k)) :
    (p.address next).TakesOperands P := by
  cases p with
  | hl =>
      have hnext := h _ 0 (.pair rfl)
      simp only [Nat.zero_add] at hnext
      exact hnext
  | index x =>
      intro d
      have hnext := h _ 1 (.indexed rfl d)
      simp only [Nat.add_comm 1] at hnext
      exact hnext

theorem takes_place {code : Fin 8} {next : Place → Reader Instruction}
    (h : ∀ place n, Operand p place n → (next place).TakesOperands fun i k => P i (n + k)) :
    (p.place code next).TakesOperands P := by
  unfold Pointer.place
  split
  · next hname => simpa using h _ 0 (.register hname)
  · exact takes_address fun a n ha => h _ n (.memory ha)

end

/-! ### The main table -/

/-- An instruction that the main table can give for the opcode with the digits `x`, `y` and `z`
when `p` is the pointer register, with the number of operands that it takes. -/
inductive MainEntry (p : Pointer) (x : Fin 4) (y z : Fin 8) : Instruction → Nat → Prop
  | nop : MainEntry p x y z .nop 0
  | idlePrefix : MainEntry p x y z .idlePrefix 0
  | halt (h : x = 1 ∧ y = 6 ∧ z = 6) : MainEntry p x y z .halt 0
  | di : MainEntry p x y z .di 0
  | ei (h : x = 3 ∧ y = 7 ∧ z = 3) : MainEntry p x y z .ei 0
  | exAf : MainEntry p x y z .exAf 0
  | exx (h : x = 3 ∧ y = 3 ∧ z = 1) : MainEntry p x y z .exx 0
  | exDeHl (h : x = 3 ∧ y = 5 ∧ z = 3) : MainEntry p x y z .exDeHl 0
  | exStack : MainEntry p x y z (.exStack p.register) 0
  | load {code : Fin 8} {target : Reg8} {a : Address} {n : Nat}
      (htarget : Reg8.ofCode? code = some target) (ha : Cell p a n) :
      MainEntry p x y z (.ld (.register target) (.place (.memory a))) n
  | store {code : Fin 8} {source : Reg8} {a : Address} {n : Nat}
      (hsource : Reg8.ofCode? code = some source) (ha : Cell p a n) :
      MainEntry p x y z (.ld (.memory a) (.place (.register source))) n
  | copy {code code' : Fin 8} {target source : Reg8}
      (htarget : Reg8.ofCode? code = some target) (hsource : Reg8.ofCode? code' = some source) :
      MainEntry p x y z
        (.ld (.register (p.substitute target)) (.place (.register (p.substitute source)))) 0
  | loadA {a : Address} {n : Nat} (ha : FixedCell a n) :
      MainEntry p x y z (.ld (.register .a) (.place (.memory a))) n
  | storeA {a : Address} {n : Nat} (ha : FixedCell a n) :
      MainEntry p x y z (.ld (.memory a) (.place (.register .a))) n
  | loadImmediate {target : Place} {n : Nat} (htarget : Operand p target n) (value : Byte) :
      MainEntry p x y z (.ld target (.immediate value)) (n + 1)
  | inc {target : Place} {n : Nat} (htarget : Operand p target n) :
      MainEntry p x y z (.inc target) n
  | dec {target : Place} {n : Nat} (htarget : Operand p target n) :
      MainEntry p x y z (.dec target) n
  | operate (op : Operation) {source : Place} {n : Nat} (hsource : Operand p source n) :
      MainEntry p x y z (.operate op (.place source)) n
  | operateImmediate (op : Operation) (value : Byte) :
      MainEntry p x y z (.operate op (.immediate value)) 1
  | adjust (op : Adjustment) : MainEntry p x y z (.adjust op) 0
  | loadWord (code : Fin 4) (nn : Word) :
      MainEntry p x y z (.ldWord (p.pair code) (.immediate nn)) 2
  | loadPointer (nn : Word) : MainEntry p x y z (.ldWord p.register (.memory nn)) 2
  | storePointer (nn : Word) : MainEntry p x y z (.storeWord nn p.register) 2
  | loadSp : MainEntry p x y z (.ldWord .sp (.register p.register)) 0
  | addWord (code : Fin 4) : MainEntry p x y z (.addWord p.register (p.pair code)) 0
  | incWord (code : Fin 4) : MainEntry p x y z (.incWord (p.pair code)) 0
  | decWord (code : Fin 4) : MainEntry p x y z (.decWord (p.pair code)) 0
  | push (code : Fin 4) : MainEntry p x y z (.push (p.stackPair code)) 0
  | pop (code : Fin 4) : MainEntry p x y z (.pop (p.stackPair code)) 0
  | jp (cond : Option Condition) (nn : Word) : MainEntry p x y z (.jp cond nn) 2
  | jpRegister : MainEntry p x y z (.jpRegister p.register) 0
  | jr (cond : Option Condition) (d : Byte) : MainEntry p x y z (.jr cond d) 1
  | djnz (d : Byte) : MainEntry p x y z (.djnz d) 1
  | call (cond : Option Condition) (nn : Word) : MainEntry p x y z (.call cond nn) 2
  | ret (cond : Option Condition) : MainEntry p x y z (.ret cond) 0
  | rst (vector : Byte) : MainEntry p x y z (.rst vector) 0
  | inA (port : Byte) : MainEntry p x y z (.inA port) 1
  | outA (port : Byte) : MainEntry p x y z (.outA port) 1

/-- Code six names no register. -/
theorem eq_six_of_ofCode? {code : Fin 8} (h : Reg8.ofCode? code = none) : code = 6 := by
  revert h
  fin_cases code <;> rintro ⟨⟩
  rfl

theorem entries_mainRow0 (p : Pointer) (y z : Fin 8) :
    (mainRow0 p y z).TakesOperands (MainEntry p 0 y z) := by
  match z with
  | 0 =>
      match y with
      | 0 => exact .nop
      | 1 => exact .exAf
      | 2 => exact fun d => .djnz d
      | 3 | 4 | 5 | 6 | 7 => exact fun d => .jr _ d
  | 1 =>
      cases hodd : odd y <;> simp only [mainRow0, hodd]
      · exact fun low high => .loadWord _ (.ofBytes high low)
      · exact .addWord _
  | 2 =>
      match y with
      | 0 => exact .storeA .bc
      | 1 => exact .loadA .bc
      | 2 => exact .storeA .de
      | 3 => exact .loadA .de
      | 4 => exact fun low high => .storePointer (.ofBytes high low)
      | 5 => exact fun low high => .loadPointer (.ofBytes high low)
      | 6 => exact fun low high => .storeA (.direct (.ofBytes high low))
      | 7 => exact fun low high => .loadA (.direct (.ofBytes high low))
  | 3 =>
      cases hodd : odd y <;> simp only [mainRow0, hodd]
      · exact .incWord _
      · exact .decWord _
  | 4 =>
      simp only [mainRow0]
      exact takes_place fun _ _ => MainEntry.inc
  | 5 =>
      simp only [mainRow0]
      exact takes_place fun _ _ => MainEntry.dec
  | 6 =>
      simp only [mainRow0]
      exact takes_place fun _ _ => MainEntry.loadImmediate
  | 7 => exact .adjust _

theorem entries_mainRow1 (p : Pointer) (y z : Fin 8) :
    (mainRow1 p y z).TakesOperands (MainEntry p 1 y z) := by
  unfold mainRow1
  split
  · next hy hz => exact .halt ⟨rfl, eq_six_of_ofCode? hy, eq_six_of_ofCode? hz⟩
  · next hz => exact takes_address fun _ _ => MainEntry.store hz
  · next hy _ => exact takes_address fun _ _ => MainEntry.load hy
  · next hy hz => exact .copy hy hz

theorem entries_mainRow2 (p : Pointer) (y z : Fin 8) :
    (mainRow2 p y z).TakesOperands (MainEntry p 2 y z) :=
  takes_place fun _ _ => MainEntry.operate _

theorem entries_mainRow3 (p : Pointer) (y z : Fin 8) :
    (mainRow3 p y z).TakesOperands (MainEntry p 3 y z) := by
  match z with
  | 0 => exact .ret _
  | 1 =>
      match y with
      | 0 | 2 | 4 | 6 => exact .pop _
      | 1 => exact .ret none
      | 3 => exact .exx ⟨rfl, rfl, rfl⟩
      | 5 => exact .jpRegister
      | 7 => exact .loadSp
  | 2 => exact fun low high => .jp _ (.ofBytes high low)
  | 3 =>
      match y with
      | 0 => exact fun low high => .jp none (.ofBytes high low)
      | 1 => exact .idlePrefix
      | 2 => exact fun port => .outA port
      | 3 => exact fun port => .inA port
      | 4 => exact .exStack
      | 5 => exact .exDeHl ⟨rfl, rfl, rfl⟩
      | 6 => exact .di
      | 7 => exact .ei ⟨rfl, rfl, rfl⟩
  | 4 => exact fun low high => .call _ (.ofBytes high low)
  | 5 =>
      match y with
      | 0 | 2 | 4 | 6 => exact .push _
      | 1 => exact fun low high => .call none (.ofBytes high low)
      | 3 | 5 | 7 => exact .idlePrefix
  | 6 => exact fun value => .operateImmediate _ value
  | 7 => exact .rst _

theorem entries_mainTable (p : Pointer) (op : Byte) :
    (mainTable p op).TakesOperands (MainEntry p (first op) (second op) (third op)) := by
  unfold mainTable
  generalize first op = x
  match x with
  | 0 => exact entries_mainRow0 p (second op) (third op)
  | 1 => exact entries_mainRow1 p (second op) (third op)
  | 2 => exact entries_mainRow2 p (second op) (third op)
  | 3 => exact entries_mainRow3 p (second op) (third op)

/-- No entry takes more than two operands. -/
theorem MainEntry.le_two (h : MainEntry p x y z i n) : n ≤ 2 := by
  cases h with
  | load _ ha | store _ ha => exact Nat.le_succ_of_le ha.le_one
  | loadA ha | storeA ha => exact ha.le_two
  | loadImmediate h _ => exact Nat.succ_le_succ h.le_one
  | inc h | dec h | operate _ h => exact Nat.le_succ_of_le h.le_one
  | _ => decide

/-! ### The table after `ED` -/

/-- The digits of an opcode after `ED` that names no instruction. -/
@[mk_iff] inductive HoleAt (x : Fin 4) (y z : Fin 8) : Prop
  | row (h : x = 0 ∨ x = 3) : HoleAt x y z
  | column (h : x = 1 ∧ z = 7 ∧ 6 ≤ y) : HoleAt x y z
  | quarter (h : x = 2 ∧ (y < 4 ∨ 4 ≤ z)) : HoleAt x y z

/-- An instruction that the table after `ED` can give for the opcode with the digits `x`, `y` and
`z`, with the number of operands that it takes. -/
inductive ExtendedEntry (x : Fin 4) (y z : Fin 8) : Instruction → Nat → Prop
  | undefined (op : Byte) (h : HoleAt x y z) : ExtendedEntry x y z (.undefined op) 0
  | inC (code : Fin 8) : ExtendedEntry x y z (.inC (Reg8.ofCode? code)) 0
  | outC (code : Fin 8) : ExtendedEntry x y z (.outC (Reg8.ofCode? code)) 0
  | adcWord (code : Fin 4) : ExtendedEntry x y z (.adcWord (Pointer.hl.pair code)) 0
  | sbcWord (code : Fin 4) : ExtendedEntry x y z (.sbcWord (Pointer.hl.pair code)) 0
  | loadWord (code : Fin 4) (nn : Word) :
      ExtendedEntry x y z (.ldWord (Pointer.hl.pair code) (.memory nn)) 2
  | storeWord (code : Fin 4) (nn : Word) :
      ExtendedEntry x y z (.storeWord nn (Pointer.hl.pair code)) 2
  | neg : ExtendedEntry x y z (.adjust .neg) 0
  | reti (h : x = 1 ∧ z = 5 ∧ odd y = true) : ExtendedEntry x y z .reti 0
  | retn : ExtendedEntry x y z .retn 0
  | im (mode : Fin 3) : ExtendedEntry x y z (.im mode) 0
  | storeI : ExtendedEntry x y z (.storeControl .i) 0
  | storeR (h : x = 1 ∧ y = 1 ∧ z = 7) : ExtendedEntry x y z (.storeControl .r) 0
  | loadI : ExtendedEntry x y z (.loadControl .i) 0
  | loadR (h : x = 1 ∧ y = 3 ∧ z = 7) : ExtendedEntry x y z (.loadControl .r) 0
  | rrd : ExtendedEntry x y z .rrd 0
  | rld : ExtendedEntry x y z .rld 0
  | block (op : BlockOperation) (dir : Direction) (repeats : Bool) :
      ExtendedEntry x y z (.block op dir repeats) 0

theorem entries_extendedRow1 (op : Byte) (y z : Fin 8) :
    (extendedRow1 op y z).TakesOperands (ExtendedEntry 1 y z) := by
  match z with
  | 0 => exact .inC y
  | 1 => exact .outC y
  | 2 =>
      cases hodd : odd y <;> simp only [extendedRow1, hodd]
      · exact .sbcWord _
      · exact .adcWord _
  | 3 =>
      cases hodd : odd y <;> simp only [extendedRow1, hodd]
      · exact fun low high => .storeWord _ (.ofBytes high low)
      · exact fun low high => .loadWord _ (.ofBytes high low)
  | 4 => exact .neg
  | 5 =>
      cases hodd : odd y <;> simp only [extendedRow1, hodd]
      · exact .retn
      · exact .reti ⟨rfl, rfl, hodd⟩
  | 6 =>
      match y with
      | 0 | 1 | 2 | 3 | 4 | 5 | 6 | 7 => exact .im _
  | 7 =>
      match y with
      | 0 => exact .storeI
      | 1 => exact .storeR ⟨rfl, rfl, rfl⟩
      | 2 => exact .loadI
      | 3 => exact .loadR ⟨rfl, rfl, rfl⟩
      | 4 => exact .rrd
      | 5 => exact .rld
      | 6 | 7 => exact .undefined op (.column ⟨rfl, rfl, by decide⟩)

/-- The block instructions fill one quarter of the third row. -/
theorem entries_extendedRow2 (op : Byte) (y z : Fin 8) :
    ExtendedEntry 2 y z (extendedRow2 op y z) 0 := by
  fin_cases y <;> fin_cases z <;>
    first
    | exact .block _ _ _
    | exact .undefined op (.quarter ⟨rfl, by decide⟩)

theorem entries_extended (op : Byte) :
    (extended op).TakesOperands (ExtendedEntry (first op) (second op) (third op)) := by
  unfold extended
  generalize first op = x
  match x with
  | 0 => exact .undefined op (.row (.inl rfl))
  | 1 => exact entries_extendedRow1 op (second op) (third op)
  | 2 => exact entries_extendedRow2 op (second op) (third op)
  | 3 => exact .undefined op (.row (.inr rfl))

theorem ExtendedEntry.le_two (h : ExtendedEntry x y z i n) : n ≤ 2 := by
  cases h <;> decide

end Encoding
end Z80Machine
