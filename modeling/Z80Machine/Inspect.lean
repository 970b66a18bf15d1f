import Z80Machine.Machine

/-!
# Inspection

Everything that can be seen of a processor has a path: a register, a flag, a
flip-flop or the instruction counter.  A path is written as a name, names are read
by a table of their own, and the value behind a path is a Boolean, a byte, a word or
a count.
-/

namespace Z80Machine

/-- A value that has been looked up. -/
inductive Value where
  | bool (value : Bool)
  | byte (value : Byte)
  | word (value : Word)
  | count (value : BitVec 64)
  deriving DecidableEq

/-- The text of a value: bytes and words in hexadecimal, counts in decimal. -/
def Value.text : Value → String
  | .bool value => if value then "true" else "false"
  | .byte value => "0x" ++ Hex.byte value
  | .word value => "0x" ++ Hex.word value
  | .count value => toString value.toNat

/-- The registers of a bank. -/
inductive BankRegister where
  | a
  | f
  | b
  | c
  | d
  | e
  | h
  | l
  deriving DecidableEq

/-- The content of a register of a bank. -/
def Bank.read (k : Bank) : BankRegister → Byte
  | .a => k.a
  | .f => k.f.toByte
  | .b => k.b
  | .c => k.c
  | .d => k.d
  | .e => k.e
  | .h => k.h
  | .l => k.l

/-- The flag that a letter stands for. -/
def Flag.ofLetter? : String → Option Flag
  | "s" => some .sign
  | "z" => some .zero
  | "y" => some .f5
  | "h" => some .halfCarry
  | "x" => some .f3
  | "p" => some .parityOverflow
  | "n" => some .addSubtract
  | "c" => some .carry
  | _ => none

/-- What can be looked up. -/
inductive Path where
  | byte (name : Reg8)
  | shadow (name : BankRegister)
  | pair (name : Reg16)
  | flag (flag : Flag)
  | iff1
  | iff2
  | im
  | halted
  | count
  deriving DecidableEq

namespace Path

/-- The name of a path. -/
def name : Path → String
  | .byte .a => "a"
  | .byte .f => "f"
  | .byte .b => "b"
  | .byte .c => "c"
  | .byte .d => "d"
  | .byte .e => "e"
  | .byte .h => "h"
  | .byte .l => "l"
  | .byte .ixh => "ixh"
  | .byte .ixl => "ixl"
  | .byte .iyh => "iyh"
  | .byte .iyl => "iyl"
  | .byte .i => "i"
  | .byte .r => "r"
  | .shadow .a => "a'"
  | .shadow .f => "f'"
  | .shadow .b => "b'"
  | .shadow .c => "c'"
  | .shadow .d => "d'"
  | .shadow .e => "e'"
  | .shadow .h => "h'"
  | .shadow .l => "l'"
  | .pair .af => "af"
  | .pair .bc => "bc"
  | .pair .de => "de"
  | .pair .hl => "hl"
  | .pair .af' => "af'"
  | .pair .bc' => "bc'"
  | .pair .de' => "de'"
  | .pair .hl' => "hl'"
  | .pair .ix => "ix"
  | .pair .iy => "iy"
  | .pair .sp => "sp"
  | .pair .pc => "pc"
  | .flag .sign => "flags.s"
  | .flag .zero => "flags.z"
  | .flag .f5 => "flags.y"
  | .flag .halfCarry => "flags.h"
  | .flag .f3 => "flags.x"
  | .flag .parityOverflow => "flags.p"
  | .flag .addSubtract => "flags.n"
  | .flag .carry => "flags.c"
  | .iff1 => "iff1"
  | .iff2 => "iff2"
  | .im => "im"
  | .halted => "halted"
  | .count => "instructions"

/-- All paths, in the order in which they are listed. -/
def all : List Path :=
  [.byte .a, .byte .f, .byte .b, .byte .c, .byte .d, .byte .e, .byte .h, .byte .l,
    .pair .af, .pair .bc, .pair .de, .pair .hl,
    .shadow .a, .shadow .f, .shadow .b, .shadow .c, .shadow .d, .shadow .e, .shadow .h, .shadow .l,
    .pair .af', .pair .bc', .pair .de', .pair .hl',
    .pair .ix, .pair .iy, .byte .ixh, .byte .ixl, .byte .iyh, .byte .iyl,
    .pair .sp, .pair .pc, .byte .i, .byte .r,
    .flag .sign, .flag .zero, .flag .f5, .flag .halfCarry, .flag .f3, .flag .parityOverflow,
    .flag .addSubtract, .flag .carry,
    .iff1, .iff2, .im, .halted, .count]

/-- The names of all paths. -/
def names : List String := all.map name

/-- What stands behind the beginning of a text, if the text begins so. -/
def behind? (beginning s : String) : Option String :=
  (beginning.toList.isPrefixOf? s.toList).map String.ofList

/-- The path with a given name.  All names that begin with `flags.` are names of flags. -/
def ofName? (s : String) : Option Path :=
  match behind? "flags." s with
  | some letter => (Flag.ofLetter? letter).map .flag
  | none =>
      match s with
      | "a" => some (.byte .a)
      | "f" => some (.byte .f)
      | "b" => some (.byte .b)
      | "c" => some (.byte .c)
      | "d" => some (.byte .d)
      | "e" => some (.byte .e)
      | "h" => some (.byte .h)
      | "l" => some (.byte .l)
      | "af" => some (.pair .af)
      | "bc" => some (.pair .bc)
      | "de" => some (.pair .de)
      | "hl" => some (.pair .hl)
      | "a'" => some (.shadow .a)
      | "f'" => some (.shadow .f)
      | "b'" => some (.shadow .b)
      | "c'" => some (.shadow .c)
      | "d'" => some (.shadow .d)
      | "e'" => some (.shadow .e)
      | "h'" => some (.shadow .h)
      | "l'" => some (.shadow .l)
      | "af'" => some (.pair .af')
      | "bc'" => some (.pair .bc')
      | "de'" => some (.pair .de')
      | "hl'" => some (.pair .hl')
      | "ix" => some (.pair .ix)
      | "iy" => some (.pair .iy)
      | "ixh" => some (.byte .ixh)
      | "ixl" => some (.byte .ixl)
      | "iyh" => some (.byte .iyh)
      | "iyl" => some (.byte .iyl)
      | "sp" => some (.pair .sp)
      | "pc" => some (.pair .pc)
      | "i" => some (.byte .i)
      | "r" => some (.byte .r)
      | "iff1" => some .iff1
      | "iff2" => some .iff2
      | "im" => some .im
      | "halted" => some .halted
      | "instructions" => some .count
      | _ => none

end Path

namespace Cpu

/-- The value behind a path. -/
def observe (c : Cpu) : Path → Value
  | .byte name => .byte (c.registers.read8 name)
  | .shadow name => .byte (c.registers.shadow.read name)
  | .pair name => .word (c.registers.readPair name)
  | .flag flag => .bool (c.registers.f.get flag)
  | .iff1 => .bool c.registers.iff1
  | .iff2 => .bool c.registers.iff2
  | .im => .byte c.registers.im
  | .halted => .bool c.registers.halted
  | .count => .count c.count

/-- The value behind the path with a given name, if there is one. -/
def query (c : Cpu) (s : String) : Option Value := (Path.ofName? s).map c.observe

end Cpu
end Z80Machine
