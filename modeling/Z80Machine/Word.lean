/-!
# Bytes and words

The processor works on bytes and on words of two bytes, both modulo a power of
two.  A word is the pair of its high and low bytes: `ofBytes_high_low` splits a
word without loss, `high_ofBytes` and `low_ofBytes` take a pair apart again.
-/

namespace Z80Machine

/-- Eight bits. -/
abbrev Byte := BitVec 8

/-- Sixteen bits: an address, a device number or the content of a register pair. -/
abbrev Word := BitVec 16

namespace Word

/-- The word with the given high and low bytes. -/
def ofBytes (high low : Byte) : Word := high ++ low

/-- Bits 15 to 8. -/
def high (w : Word) : Byte := w.extractLsb' 8 8

/-- Bits 7 to 0. -/
def low (w : Word) : Byte := w.extractLsb' 0 8

@[simp] theorem high_ofBytes (h l : Byte) : (ofBytes h l).high = h := by
  unfold high ofBytes
  exact BitVec.extractLsb'_append_eq_left

@[simp] theorem low_ofBytes (h l : Byte) : (ofBytes h l).low = l := by
  unfold low ofBytes
  exact BitVec.extractLsb'_append_eq_right

@[simp] theorem ofBytes_high_low (w : Word) : ofBytes w.high w.low = w := by
  ext i hi
  rw [ofBytes, BitVec.getElem_append]
  split
  · simp [low, BitVec.getLsbD_eq_getElem hi]
  · rw [high, BitVec.getElem_extractLsb', show 8 + (i - 8) = i by omega,
      BitVec.getLsbD_eq_getElem hi]

/-- The address `d` bytes away from `base`, where `d` counts from -128 to 127. -/
def offset (base : Word) (d : Byte) : Word := base + d.signExtend 16

/-- One step on and `n` more are `n + 1` steps. -/
theorem add_one_add_ofNat (w : Word) (n : Nat) :
    w + 1 + BitVec.ofNat 16 n = w + BitVec.ofNat 16 (n + 1) := by
  rw [BitVec.add_assoc, Nat.add_comm, BitVec.ofNat_add]
  rfl

theorem sub_one_sub_one (w : Word) : w - 1 - 1 = w - 2 := by
  rw [BitVec.sub_sub]
  rfl

theorem sub_two_add_one (w : Word) : w - 2 + 1 = w - 1 := by
  rw [← sub_one_sub_one, BitVec.sub_add_cancel]

theorem ne_add_two (w : Word) : w ≠ w + 2 := by
  bv_omega

theorem ne_sub_two (w : Word) : w ≠ w - 2 := by
  bv_omega

@[simp] theorem ne_sub_one (w : Word) : w ≠ w - 1#16 := by
  intro h
  have := congrArg BitVec.toNat h
  rw [BitVec.toNat_sub] at this
  simp at this
  omega

end Word

end Z80Machine
