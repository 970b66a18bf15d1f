import Z80Machine.Word

/-!
# Readers

A reader asks for the bytes of an encoding one after the other and ends with
what they mean.  It does not say where the bytes come from: `Reader.parse` takes
them from a list, and a machine can take them from its memory.

Opcodes and operands are told apart because a processor treats the two kinds of
fetch differently.
-/

namespace Z80Machine

/-- A decision tree over the bytes of an encoding. -/
inductive Reader (α : Type) where
  | done (value : α)
  /-- Takes a byte that selects an instruction. -/
  | opcode (next : Byte → Reader α)
  /-- Takes a byte that belongs to a selected instruction. -/
  | operand (next : Byte → Reader α)
  /-- Looks at the next byte, if there is one, without taking it. -/
  | peek (next : Option Byte → Reader α)

namespace Reader

variable {α β : Type}

/-- Reads from a list, past whose end there are zeros.  The second component is
the number of bytes taken. -/
def parse : Reader α → List Byte → α × Nat
  | done value, _ => (value, 0)
  | opcode next, bytes =>
      let (value, n) := (next (bytes.headD 0)).parse bytes.tail
      (value, n + 1)
  | operand next, bytes =>
      let (value, n) := (next (bytes.headD 0)).parse bytes.tail
      (value, n + 1)
  | peek next, bytes => (next bytes.head?).parse bytes

/-- Changes the value at which a reader ends. -/
def map (f : α → β) : Reader α → Reader β
  | done value => done (f value)
  | opcode next => opcode fun byte => (next byte).map f
  | operand next => operand fun byte => (next byte).map f
  | peek next => peek fun byte? => (next byte?).map f

/-- Takes two operand bytes, the low one first. -/
def word (next : Word → Reader α) : Reader α :=
  operand fun low => operand fun high => next (.ofBytes high low)

@[simp] theorem parse_done (value : α) (bytes : List Byte) :
    (done value).parse bytes = (value, 0) := rfl

theorem parse_opcode (next : Byte → Reader α) (bytes : List Byte) :
    (opcode next).parse bytes =
      (((next (bytes.headD 0)).parse bytes.tail).1,
        ((next (bytes.headD 0)).parse bytes.tail).2 + 1) := rfl

theorem parse_operand (next : Byte → Reader α) (bytes : List Byte) :
    (operand next).parse bytes =
      (((next (bytes.headD 0)).parse bytes.tail).1,
        ((next (bytes.headD 0)).parse bytes.tail).2 + 1) := rfl

theorem parse_peek (next : Option Byte → Reader α) (bytes : List Byte) :
    (peek next).parse bytes = (next bytes.head?).parse bytes := rfl

/-- Changing the value does not change what is read. -/
theorem parse_map (f : α → β) (r : Reader α) (bytes : List Byte) :
    (r.map f).parse bytes = (f (r.parse bytes).1, (r.parse bytes).2) := by
  induction r generalizing bytes with
  | done value => rfl
  | opcode next ih => simp only [map, parse_opcode, ih]
  | operand next ih => simp only [map, parse_operand, ih]
  | peek next ih => simp only [map, parse_peek, ih]

end Reader
end Z80Machine
