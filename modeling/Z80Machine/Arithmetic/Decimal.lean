import Z80Machine.Arithmetic.Byte

/-!
# Decimal adjustment

After two bytes of packed decimal digits have been added or subtracted,
`decimalAdjust` corrects each digit that left the range zero to nine.  The
half-carry, carry and add/subtract flags tell it what happened before.
-/

namespace Z80Machine
namespace Arithmetic

/-- What the adjustment adds or subtracts: six in each digit out of range. -/
def decimalCorrection (a : Byte) (f : Flags) : Byte :=
  (if f.halfCarry || decide (9 < a.toNat % 16) then 0x06 else 0) +
    (if f.carry || decide (0x99 < a.toNat) then 0x60 else 0)

/-- The accumulator corrected to two decimal digits. -/
def decimalAdjust (a : Byte) (f : Flags) : Result :=
  let correction := decimalCorrection a f
  let value := if f.addSubtract then a - correction else a + correction
  { value
    flags :=
      { Flags.ofLogic value with
        halfCarry :=
          if f.addSubtract then f.halfCarry && decide (a.toNat % 16 < 6)
          else decide (9 < a.toNat % 16)
        addSubtract := f.addSubtract
        carry := f.carry || decide (0x99 < a.toNat) } }

end Arithmetic
end Z80Machine
