import Z80Machine.Word

/-!
# Hexadecimal text

Bytes are written with two upper-case digits and words with four, leading
zeros included, so the text of a word is the text of its two bytes in a row.
-/

namespace Z80Machine
namespace Hex

/-- The digit for a value below sixteen. -/
def digit (n : Nat) : Char := n.digitChar.toUpper

/-- Two digits. -/
def byte (b : Byte) : String := String.ofList [digit (b.toNat / 16), digit (b.toNat % 16)]

/-- Four digits. -/
def word (w : Word) : String := byte w.high ++ byte w.low

@[simp] theorem length_byte (b : Byte) : (byte b).length = 2 := by
  simp [byte]

end Hex
end Z80Machine
