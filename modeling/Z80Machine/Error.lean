import Z80Machine.Hex

/-!
# Errors

What can go wrong: an instruction table without an entry for an opcode, and
condition codes and interrupt modes that do not exist.
-/

namespace Z80Machine

/-- A cause of failure. -/
inductive Error where
  /-- The byte after an `ED` byte at `address` names no instruction. -/
  | undefinedOpcode (opcode : Byte) (address : Word)
  /-- A condition code above seven. -/
  | invalidCondition (code : Byte)
  /-- An interrupt mode above two. -/
  | invalidInterruptMode (mode : Byte)
  deriving DecidableEq

/-- The text shown for an error. -/
def Error.message : Error → String
  | .undefinedOpcode opcode address =>
      "undefined opcode 0x" ++ Hex.byte opcode ++ " in ED table at 0x" ++ Hex.word address
  | .invalidCondition code => "invalid condition code " ++ toString code.toNat
  | .invalidInterruptMode mode => "invalid interrupt mode " ++ toString mode.toNat

end Z80Machine
