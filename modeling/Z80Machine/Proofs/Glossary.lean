import Z80Machine.Instruction.Text

/-!
# The words on a line and what they mean

To its reader a line of the disassembler is made of words.  The name of a register stands for what
the register holds, a condition asks that a flag have one of its two values, and the name of an
operation or of a shift tells a byte and flags.  Here each word stands beside its meaning
(`Reg8.gloss`, `Reg16.gloss`, `Condition.gloss`, `Operation.gloss`, `Shift.gloss`), apart from the
tables by which lines are written and from the functions by which instructions are carried out.

Lines are written with these words, and carrying out an instruction takes them at their meaning:
`get_gloss` and `put_gloss` for registers, `metBy_iff` for conditions, and `result_gloss` for
operations and for shifts.
-/

namespace Z80Machine

/-! ### Registers -/

/-- The word for a register, what the register holds, and how something else is put into it. -/
structure RegisterGloss (α : Type) where
  word : String
  get : Registers → α
  put : Registers → α → Registers

namespace Reg8

/-- What each byte register is called and where it lies. -/
def gloss : Reg8 → RegisterGloss Byte
  | .a => ⟨"A", (·.a), fun s v => { s with a := v }⟩
  | .f => ⟨"F", (·.f.toByte), fun s v => { s with f := .ofByte v }⟩
  | .b => ⟨"B", (·.b), fun s v => { s with b := v }⟩
  | .c => ⟨"C", (·.c), fun s v => { s with c := v }⟩
  | .d => ⟨"D", (·.d), fun s v => { s with d := v }⟩
  | .e => ⟨"E", (·.e), fun s v => { s with e := v }⟩
  | .h => ⟨"H", (·.h), fun s v => { s with h := v }⟩
  | .l => ⟨"L", (·.l), fun s v => { s with l := v }⟩
  | .ixh => ⟨"IXH", (·.ix.high), fun s v => { s with ix := .ofBytes v s.ix.low }⟩
  | .ixl => ⟨"IXL", (·.ix.low), fun s v => { s with ix := .ofBytes s.ix.high v }⟩
  | .iyh => ⟨"IYH", (·.iy.high), fun s v => { s with iy := .ofBytes v s.iy.low }⟩
  | .iyl => ⟨"IYL", (·.iy.low), fun s v => { s with iy := .ofBytes s.iy.high v }⟩
  | .i => ⟨"I", (·.i), fun s v => { s with i := v }⟩
  | .r => ⟨"R", (·.r), fun s v => { s with r := v }⟩

variable (name : Reg8) (s : Registers) (v : Byte)

@[simp] theorem word_gloss : name.gloss.word = name.text := by
  cases name <;> rfl

@[simp] theorem get_gloss : name.gloss.get s = s.read8 name := by
  cases name <;> rfl

@[simp] theorem put_gloss : name.gloss.put s v = s.write8 name v := by
  cases name <;> rfl

end Reg8

namespace Reg16

/-- What each word register is called and where it lies, the high byte first. -/
def gloss : Reg16 → RegisterGloss Word
  | .af => ⟨"AF", fun s => .ofBytes s.a s.f.toByte,
      fun s w => { s with a := w.high, f := .ofByte w.low }⟩
  | .bc => ⟨"BC", fun s => .ofBytes s.b s.c, fun s w => { s with b := w.high, c := w.low }⟩
  | .de => ⟨"DE", fun s => .ofBytes s.d s.e, fun s w => { s with d := w.high, e := w.low }⟩
  | .hl => ⟨"HL", fun s => .ofBytes s.h s.l, fun s w => { s with h := w.high, l := w.low }⟩
  | .af' => ⟨"AF'", fun s => .ofBytes s.shadow.a s.shadow.f.toByte,
      fun s w => { s with shadow.a := w.high, shadow.f := .ofByte w.low }⟩
  | .bc' => ⟨"BC'", fun s => .ofBytes s.shadow.b s.shadow.c,
      fun s w => { s with shadow.b := w.high, shadow.c := w.low }⟩
  | .de' => ⟨"DE'", fun s => .ofBytes s.shadow.d s.shadow.e,
      fun s w => { s with shadow.d := w.high, shadow.e := w.low }⟩
  | .hl' => ⟨"HL'", fun s => .ofBytes s.shadow.h s.shadow.l,
      fun s w => { s with shadow.h := w.high, shadow.l := w.low }⟩
  | .ix => ⟨"IX", (·.ix), fun s w => { s with ix := w }⟩
  | .iy => ⟨"IY", (·.iy), fun s w => { s with iy := w }⟩
  | .sp => ⟨"SP", (·.sp), fun s w => { s with sp := w }⟩
  | .pc => ⟨"PC", (·.pc), fun s w => { s with pc := w }⟩

variable (name : Reg16) (s : Registers) (w : Word)

@[simp] theorem word_gloss : name.gloss.word = name.text := by
  cases name <;> rfl

@[simp] theorem get_gloss : name.gloss.get s = s.readPair name := by
  cases name <;> rfl

@[simp] theorem put_gloss : name.gloss.put s w = s.writePair name w := by
  cases name <;> rfl

end Reg16

/-! ### Conditions -/

/-- The word for a condition, the flag that it asks for, and the value that it wants. -/
structure ConditionGloss where
  word : String
  flag : Flags → Bool
  value : Bool

namespace Condition

/-- What each condition is called and what it asks. -/
def gloss : Condition → ConditionGloss
  | .nz => ⟨"NZ", (·.zero), false⟩
  | .z => ⟨"Z", (·.zero), true⟩
  | .nc => ⟨"NC", (·.carry), false⟩
  | .c => ⟨"C", (·.carry), true⟩
  | .po => ⟨"PO", (·.parityOverflow), false⟩
  | .pe => ⟨"PE", (·.parityOverflow), true⟩
  | .p => ⟨"P", (·.sign), false⟩
  | .m => ⟨"M", (·.sign), true⟩

/-- The flag that a condition asks for has the value that it wants. -/
def MetBy (cond : Condition) (f : Flags) : Prop := cond.gloss.flag f = cond.gloss.value

instance (cond : Condition) (f : Flags) : Decidable (cond.MetBy f) :=
  inferInstanceAs (Decidable (cond.gloss.flag f = cond.gloss.value))

@[simp] theorem word_gloss (cond : Condition) : cond.gloss.word = cond.text := by
  cases cond <;> rfl

theorem metBy_iff (cond : Condition) (f : Flags) : cond.MetBy f ↔ cond.holds f = true := by
  cases cond <;> simp [MetBy, gloss, holds]

end Condition

/-! ### Operations on the accumulator -/

/-- The word for an operation, the operands that are written after it if the second byte is
written in a given way, and what comes of the accumulator, the second byte and the carry flag. -/
structure OperationGloss where
  word : String
  operands : String → List String
  result : Byte → Byte → Bool → Arithmetic.Result

namespace Operation

open Arithmetic

/-- What each operation is called and what it does. -/
def gloss : Operation → OperationGloss
  | .add => ⟨"ADD", fun y => ["A", y], fun a b _ => addByte a b false⟩
  | .adc => ⟨"ADC", fun y => ["A", y], fun a b carry => addByte a b carry⟩
  | .sub => ⟨"SUB", fun y => [y], fun a b _ => subByte a b false⟩
  | .sbc => ⟨"SBC", fun y => ["A", y], fun a b carry => subByte a b carry⟩
  | .and => ⟨"AND", fun y => [y], fun a b _ => andByte a b⟩
  | .xor => ⟨"XOR", fun y => [y], fun a b _ => xorByte a b⟩
  | .or => ⟨"OR", fun y => [y], fun a b _ => orByte a b⟩
  | .cp => ⟨"CP", fun y => [y], fun a b _ => compareByte a b⟩

variable (op : Operation)

@[simp] theorem word_gloss : op.gloss.word = op.text := by
  cases op <;> rfl

@[simp] theorem operands_gloss (y : String) :
    op.gloss.operands y = if op.namesAccumulator then ["A", y] else [y] := by
  cases op <;> rfl

@[simp] theorem result_gloss (a b : Byte) (f : Flags) :
    op.gloss.result a b f.carry = op.apply a b f := by
  cases op <;> rfl

end Operation

/-! ### Shifts -/

/-- The word for a shift, what comes of a byte and the carry flag, and the bit of the byte that
falls out. -/
structure ShiftGloss where
  word : String
  value : Byte → Bool → Byte
  out : Nat

/-- The shifted byte with its flags. -/
def ShiftGloss.result (g : ShiftGloss) (x : Byte) (carry : Bool) : Arithmetic.Result where
  value := g.value x carry
  flags := { Flags.ofLogic (g.value x carry) with carry := x.getLsbD g.out }

namespace Shift

/-- What each shift is called and what it does. -/
def gloss : Shift → ShiftGloss
  | .rlc => ⟨"RLC", fun x _ => x.rotateLeft 1, 7⟩
  | .rrc => ⟨"RRC", fun x _ => x.rotateRight 1, 0⟩
  | .rl => ⟨"RL", fun x carry => x <<< 1 ||| if carry then 1 else 0, 7⟩
  | .rr => ⟨"RR", fun x carry => x >>> 1 ||| if carry then BitVec.twoPow 8 7 else 0, 0⟩
  | .sla => ⟨"SLA", fun x _ => x <<< 1, 7⟩
  | .sra => ⟨"SRA", fun x _ => x.sshiftRight 1, 0⟩
  | .sll => ⟨"SLL", fun x _ => x <<< 1 ||| 1, 7⟩
  | .srl => ⟨"SRL", fun x _ => x >>> 1, 0⟩

@[simp] theorem word_gloss (op : Shift) : op.gloss.word = op.text := by
  cases op <;> rfl

theorem out_gloss (op : Shift) (x : Byte) : x.getLsbD op.gloss.out = op.bitOut x := by
  cases op <;> rfl

section

variable (x : Byte) (b : Bool) {i : Nat} (hi : i < 8)

/-- A bit of a byte that has moved up by one place. -/
theorem getElem_moveUp :
    (x.extractLsb' 0 7 ++ BitVec.ofBool b : Byte)[i] = if i = 0 then b else x[i - 1] := by
  rw [BitVec.getElem_append]
  cases i with
  | zero => simp
  | succ i =>
      have hbit : x.getLsbD i = x[i] := BitVec.getLsbD_eq_getElem (Nat.lt_of_succ_lt hi)
      simp [hbit]

/-- A bit of a byte that has moved down by one place. -/
theorem getElem_moveDown :
    (BitVec.ofBool b ++ x.extractLsb' 1 7 : Byte)[i] = if h : i = 7 then b else x[i + 1] := by
  rw [BitVec.getElem_append]
  by_cases hseven : i = 7
  · subst hseven
    simp
  · have hlt : i < 7 := by omega
    have hbit : x.getLsbD (i + 1) = x[i + 1] := BitVec.getLsbD_eq_getElem (Nat.succ_lt_succ hlt)
    simp [hseven, hlt, Nat.add_comm, hbit]

end

theorem value_gloss (op : Shift) (x : Byte) (carry : Bool) :
    op.gloss.value x carry = op.value x carry := by
  symm
  ext i hi
  -- the bit that enters comes first, then those that move
  cases op with
  | rlc | rl | sla | sll =>
      refine (getElem_moveUp x _ hi).trans ?_
      by_cases hzero : i = 0
      · subst hzero
        cases carry <;> simp [gloss, bitIn, BitVec.getElem_rotateLeft]
      · cases carry <;> simp [gloss, BitVec.getElem_rotateLeft, hzero]
  | rrc | rr | sra | srl =>
      refine (getElem_moveDown x _ hi).trans ?_
      by_cases hseven : i = 7
      · subst hseven
        cases carry <;> simp [gloss, bitIn, BitVec.getElem_rotateRight, BitVec.getElem_sshiftRight,
          BitVec.msb_eq_getLsbD_last]
      · have hlt : i < 7 := by omega
        have hbit : x.getLsbD (i + 1) = x[i + 1] :=
          BitVec.getLsbD_eq_getElem (Nat.succ_lt_succ hlt)
        cases carry <;> simp [gloss, BitVec.getElem_rotateRight, BitVec.getElem_sshiftRight,
          BitVec.getElem_twoPow, hseven, hlt, Nat.not_le.mpr hlt, Nat.add_comm, hbit]

@[simp] theorem result_gloss (op : Shift) (x : Byte) (f : Flags) :
    op.gloss.result x f.carry = Arithmetic.shift op x f := by
  rw [ShiftGloss.result, value_gloss, out_gloss]
  rfl

end Shift
end Z80Machine
