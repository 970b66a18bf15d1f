import Z80Machine.Flags

/-!
# Selective flag updates

An `Update` says which flags an operation changes and from what: some are
derived from a result byte, some are given outright, and the rest stay.  A flag
given outright wins over the same flag derived from the result.
-/

namespace Z80Machine
namespace Flags

/-- Which flags to change.  The first four fields select flags derived from the
result byte; the others hold an explicit value, or `none` to leave the flag. -/
structure Update where
  sign : Bool := false
  zero : Bool := false
  undocumented : Bool := false
  parity : Bool := false
  parityOverflow : Option Bool := none
  halfCarry : Option Bool := none
  addSubtract : Option Bool := none
  carry : Option Bool := none
  deriving DecidableEq

namespace Update

/-- Changes nothing. -/
def keep : Update := {}

/-- Derives sign, zero, bits 5 and 3, and parity. -/
def logic : Update := { sign := true, zero := true, undocumented := true, parity := true }

/-- Derives sign, zero, and bits 5 and 3. -/
def result : Update := { logic with parity := false }

/-- Gives the parity/overflow flag outright, in place of the parity. -/
def withParityOverflow (u : Update) (value : Bool) : Update :=
  { u with parity := false, parityOverflow := some value }

/-- Gives the half-carry flag outright. -/
def withHalfCarry (u : Update) (value : Bool) : Update := { u with halfCarry := some value }

/-- Gives the add/subtract flag outright. -/
def withAddSubtract (u : Update) (value : Bool) : Update := { u with addSubtract := some value }

/-- Gives the carry flag outright. -/
def withCarry (u : Update) (value : Bool) : Update := { u with carry := some value }

end Update

/-- The flags after an update by the byte `value`. -/
def update (f : Flags) (value : Byte) (u : Update) : Flags where
  sign := if u.sign then value.msb else f.sign
  zero := if u.zero then value == 0 else f.zero
  f5 := if u.undocumented then value.getLsbD 5 else f.f5
  f3 := if u.undocumented then value.getLsbD 3 else f.f3
  parityOverflow :=
    u.parityOverflow.getD (if u.parity then evenParity value else f.parityOverflow)
  halfCarry := u.halfCarry.getD f.halfCarry
  addSubtract := u.addSubtract.getD f.addSubtract
  carry := u.carry.getD f.carry

@[simp] theorem update_keep (f : Flags) (value : Byte) : f.update value .keep = f := rfl

end Flags
end Z80Machine
