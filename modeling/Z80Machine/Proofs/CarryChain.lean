import Mathlib.Data.Nat.Digits.Defs
import Mathlib.Tactic.LinearCombination
import Z80Machine.Instruction

/-!
# Numbers of many bytes

A number of many bytes is worked on from its least significant byte up, and the carry flag hands
on what does not fit into a byte (`chain`).  If the operation is right for one byte, the whole
chain is right for numbers of any length: `Computes.chain` proves this once for every way to
write digits as bytes (`Numeral`), and for sums and differences alike.
-/

namespace Z80Machine

/-- A way to write numbers with bytes for their digits. -/
structure Numeral where
  /-- One more than the greatest digit. -/
  base : Nat
  /-- Whether a byte stands for a digit. -/
  IsDigit : Byte → Prop
  /-- The digit that a byte stands for. -/
  digit : Byte → Nat

/-- The number that bytes stand for, the least significant digit first. -/
def Numeral.value (N : Numeral) (bytes : List Byte) : Nat := Nat.ofDigits N.base (bytes.map N.digit)

namespace Arithmetic

/-- Combines the bytes of two numbers, the first ones first.  The flags that each pair of bytes
leaves are those with which the next pair begins. -/
def chain (op : Byte → Byte → Flags → Result) : List Byte → List Byte → Flags → List Byte × Flags
  | a :: as, b :: bs, f =>
      let r := op a b f
      let (values, f) := chain op as bs r.flags
      (r.value :: values, f)
  | _, _, f => ([], f)

/-- For one digit the operation adds the second operand and the carry to the first if `sign` is
1, and subtracts them if it is -1.  What does not fit into the digit goes to the carry flag. -/
structure Computes (op : Byte → Byte → Flags → Result) (N : Numeral) (sign : Int) : Prop where
  isDigit : ∀ a b f, N.IsDigit a → N.IsDigit b → N.IsDigit (op a b f).value
  digit : ∀ a b f, N.IsDigit a → N.IsDigit b →
    (N.digit (op a b f).value : Int) + sign * (op a b f).flags.carry.toNat * N.base =
      N.digit a + sign * (N.digit b + f.carry.toNat)

variable {op : Byte → Byte → Flags → Result} {N : Numeral} {sign : Int}

theorem chain_cons (a b : Byte) (as bs : List Byte) (f : Flags) :
    chain op (a :: as) (b :: bs) f =
      ((op a b f).value :: (chain op as bs (op a b f).flags).1,
        (chain op as bs (op a b f).flags).2) := rfl

theorem length_chain {as bs : List Byte} (hlength : as.length = bs.length) (f : Flags) :
    (chain op as bs f).1.length = as.length := by
  induction as generalizing bs f with
  | nil => rfl
  | cons a as ih =>
      cases bs with
      | nil => contradiction
      | cons b bs =>
          rw [chain_cons, List.length_cons, List.length_cons, ih (Nat.succ.inj hlength)]

theorem Computes.isDigit_chain (h : Computes op N sign) {as bs : List Byte}
    (has : ∀ a ∈ as, N.IsDigit a) (hbs : ∀ b ∈ bs, N.IsDigit b) (f : Flags) :
    ∀ d ∈ (Arithmetic.chain op as bs f).1, N.IsDigit d := by
  induction as generalizing bs f with
  | nil => simp [Arithmetic.chain]
  | cons a as ih =>
      cases bs with
      | nil => simp [Arithmetic.chain]
      | cons b bs =>
          obtain ⟨ha, has⟩ := List.forall_mem_cons.mp has
          obtain ⟨hb, hbs⟩ := List.forall_mem_cons.mp hbs
          rw [chain_cons]
          exact List.forall_mem_cons.mpr ⟨h.isDigit a b f ha hb, ih has hbs _⟩

/-- An operation that computes digits computes numbers of any length. -/
theorem Computes.chain (h : Computes op N sign) {as bs : List Byte}
    (hlength : as.length = bs.length) (has : ∀ a ∈ as, N.IsDigit a)
    (hbs : ∀ b ∈ bs, N.IsDigit b) (f : Flags) :
    (N.value (Arithmetic.chain op as bs f).1 : Int) +
        sign * (Arithmetic.chain op as bs f).2.carry.toNat * N.base ^ as.length =
      N.value as + sign * (N.value bs + f.carry.toNat) := by
  induction as generalizing bs f with
  | nil =>
      obtain rfl := List.length_eq_zero_iff.mp hlength.symm
      simp [Arithmetic.chain, Numeral.value]
  | cons a as ih =>
      cases bs with
      | nil => contradiction
      | cons b bs =>
          obtain ⟨ha, has⟩ := List.forall_mem_cons.mp has
          obtain ⟨hb, hbs⟩ := List.forall_mem_cons.mp hbs
          -- the carry of the first digit is what the others begin with
          have hfirst := h.digit a b f ha hb
          have hrest := ih (Nat.succ.inj hlength) has hbs (op a b f).flags
          simp only [Numeral.value] at hrest ⊢
          simp only [chain_cons, List.map_cons, Nat.ofDigits_cons, List.length_cons, pow_succ]
          push_cast at hrest ⊢
          linear_combination hfirst + N.base * hrest

end Arithmetic
end Z80Machine
