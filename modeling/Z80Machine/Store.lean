import Z80Machine.Word

/-!
# Stores

A store holds one byte for each word.  It is a perfect binary tree that is
walked along the bits of the index, so changing one cell shares the rest of the
tree with the old store.  `get_set` is the law of reading after writing, and
`Cells.ext` says that a store is nothing but its cells.
-/

namespace Z80Machine

/-- A byte for each `n`-bit index. -/
inductive Cells : Nat → Type where
  | leaf (value : Byte) : Cells 0
  | node {n : Nat} (low high : Cells n) : Cells (n + 1)

namespace Cells

/-- The same byte in every cell. -/
def fill (value : Byte) : (n : Nat) → Cells n
  | 0 => .leaf value
  | n + 1 => .node (fill value n) (fill value n)

/-- The byte in one cell. -/
def get : {n : Nat} → Cells n → BitVec n → Byte
  | 0, .leaf value, _ => value
  | n + 1, .node low high, i =>
      if i.msb then high.get (i.setWidth n) else low.get (i.setWidth n)

/-- Changes one cell. -/
def set : {n : Nat} → Cells n → BitVec n → Byte → Cells n
  | 0, .leaf _, _, value => .leaf value
  | n + 1, .node low high, i, value =>
      if i.msb then .node low (high.set (i.setWidth n) value)
      else .node (low.set (i.setWidth n) value) high

private theorem eq_iff_msb_setWidth {n : Nat} (i j : BitVec (n + 1)) :
    i = j ↔ i.msb = j.msb ∧ i.setWidth n = j.setWidth n := by
  constructor
  · rintro rfl
    exact ⟨rfl, rfl⟩
  · rintro ⟨hmsb, hrest⟩
    rw [← BitVec.cons_msb_setWidth i, ← BitVec.cons_msb_setWidth j, hmsb, hrest]

@[simp] theorem get_fill (value : Byte) {n : Nat} (i : BitVec n) :
    (fill value n).get i = value := by
  induction n with
  | zero => rfl
  | succ n ih => simp [fill, get, ih]

theorem get_set {n : Nat} (c : Cells n) (i j : BitVec n) (value : Byte) :
    (c.set i value).get j = if j = i then value else c.get j := by
  induction c with
  | leaf old => simp [set, get, Subsingleton.elim j i]
  | node low high ihLow ihHigh =>
      simp only [eq_iff_msb_setWidth, set]
      cases hi : i.msb <;> cases hj : j.msb <;> simp [get, hj, ihLow, ihHigh]

@[simp] theorem get_set_self {n : Nat} (c : Cells n) (i : BitVec n) (value : Byte) :
    (c.set i value).get i = value := by
  simp [get_set]

theorem get_set_of_ne {n : Nat} (c : Cells n) {i j : BitVec n} (value : Byte) (h : j ≠ i) :
    (c.set i value).get j = c.get j := by
  simp [get_set, h]

/-- Stores with the same cells are equal. -/
theorem ext {n : Nat} {c d : Cells n} (h : ∀ i, c.get i = d.get i) : c = d := by
  induction c with
  | leaf value =>
      cases d with
      | leaf other => simpa [get] using h 0
  | node low high ihLow ihHigh =>
      cases d with
      | node low' high' =>
          congr 1
          · exact ihLow fun i => by simpa [get] using h (BitVec.cons false i)
          · exact ihHigh fun i => by simpa [get] using h (BitVec.cons true i)

/-- Writing what is there changes nothing. -/
@[simp] theorem set_get_self {n : Nat} (c : Cells n) (i : BitVec n) : c.set i (c.get i) = c := by
  apply ext
  intro j
  by_cases h : j = i
  · rw [h, get_set_self]
  · exact get_set_of_ne c _ h

end Cells

/-- A byte for each word. -/
abbrev Store := Cells 16

namespace Store

/-- Copies bytes into consecutive cells, starting at `address` and going on at
zero after the last cell.  Where two bytes meet the same cell the later stays. -/
def load (s : Store) (address : Word) : List Byte → Store
  | [] => s
  | value :: rest => load (s.set address value) (address + 1) rest

theorem load_append (s : Store) (address : Word) (xs ys : List Byte) :
    s.load address (xs ++ ys) =
      (s.load address xs).load (address + BitVec.ofNat 16 xs.length) ys := by
  induction xs generalizing s address with
  | nil => simp [load]
  | cons x xs ih =>
      rw [List.cons_append, load, load, ih, Word.add_one_add_ofNat, List.length_cons]

/-- The cells from `address` on, `count` of them. -/
def dump (s : Store) (address : Word) : Nat → List Byte
  | 0 => []
  | count + 1 => s.get address :: dump s (address + 1) count

end Store
end Z80Machine
