import Z80Machine.Error
import Z80Machine.Flags

/-!
# The register file

Two banks of eight byte registers, of which only the main one takes part in
instructions, four words, two bytes of special use, and the interrupt and halt
state.  `read8` and `write8` name single bytes, `readPair` and `writePair` name
words; some names overlap, as a pair is made of two of the bytes.
-/

namespace Z80Machine

/-- The names of the byte registers that can be read and written. -/
inductive Reg8 where
  | a
  | f
  | b
  | c
  | d
  | e
  | h
  | l
  | ixh
  | ixl
  | iyh
  | iyl
  | i
  | r
  deriving DecidableEq

/-- The names of the word registers and of the pairs of byte registers.  A prime
marks the shadow bank. -/
inductive Reg16 where
  | af
  | bc
  | de
  | hl
  | af'
  | bc'
  | de'
  | hl'
  | ix
  | iy
  | sp
  | pc
  deriving DecidableEq

/-- Eight byte registers, of which one holds the flags. -/
structure Bank where
  a : Byte := 0
  f : Flags := {}
  b : Byte := 0
  c : Byte := 0
  d : Byte := 0
  e : Byte := 0
  h : Byte := 0
  l : Byte := 0
  deriving DecidableEq

namespace Bank

/-- The pair of the accumulator and the flags. -/
def af (k : Bank) : Word := Word.ofBytes k.a k.f.toByte

/-- The pair of B and C. -/
def bc (k : Bank) : Word := Word.ofBytes k.b k.c

/-- The pair of D and E. -/
def de (k : Bank) : Word := Word.ofBytes k.d k.e

/-- The pair of H and L. -/
def hl (k : Bank) : Word := Word.ofBytes k.h k.l

/-- Changes the accumulator and the flags. -/
def setAf (k : Bank) (w : Word) : Bank := { k with a := w.high, f := .ofByte w.low }

/-- Changes B and C. -/
def setBc (k : Bank) (w : Word) : Bank := { k with b := w.high, c := w.low }

/-- Changes D and E. -/
def setDe (k : Bank) (w : Word) : Bank := { k with d := w.high, e := w.low }

/-- Changes H and L. -/
def setHl (k : Bank) (w : Word) : Bank := { k with h := w.high, l := w.low }

end Bank

/-- The whole register file: the main bank, its shadow, and the rest. -/
structure Registers extends Bank where
  shadow : Bank := {}
  ix : Word := 0
  iy : Word := 0
  sp : Word := 0
  pc : Word := 0
  /-- The page of the interrupt table. -/
  i : Byte := 0
  /-- The counter of refreshed memory rows. -/
  r : Byte := 0
  /-- Whether maskable interrupts are enabled. -/
  iff1 : Bool := false
  /-- What `iff1` was before a non-maskable interrupt. -/
  iff2 : Bool := false
  /-- The interrupt mode. -/
  im : Byte := 0
  halted : Bool := false
  deriving DecidableEq

namespace Registers

/-- The content of a byte register. -/
def read8 (s : Registers) : Reg8 → Byte
  | .a => s.a
  | .f => s.f.toByte
  | .b => s.b
  | .c => s.c
  | .d => s.d
  | .e => s.e
  | .h => s.h
  | .l => s.l
  | .ixh => s.ix.high
  | .ixl => s.ix.low
  | .iyh => s.iy.high
  | .iyl => s.iy.low
  | .i => s.i
  | .r => s.r

/-- Changes a byte register. -/
def write8 (s : Registers) (name : Reg8) (value : Byte) : Registers :=
  match name with
  | .a => { s with a := value }
  | .f => { s with f := .ofByte value }
  | .b => { s with b := value }
  | .c => { s with c := value }
  | .d => { s with d := value }
  | .e => { s with e := value }
  | .h => { s with h := value }
  | .l => { s with l := value }
  | .ixh => { s with ix := .ofBytes value s.ix.low }
  | .ixl => { s with ix := .ofBytes s.ix.high value }
  | .iyh => { s with iy := .ofBytes value s.iy.low }
  | .iyl => { s with iy := .ofBytes s.iy.high value }
  | .i => { s with i := value }
  | .r => { s with r := value }

/-- The content of a word register or of a pair. -/
def readPair (s : Registers) : Reg16 → Word
  | .af => s.af
  | .bc => s.bc
  | .de => s.de
  | .hl => s.hl
  | .af' => s.shadow.af
  | .bc' => s.shadow.bc
  | .de' => s.shadow.de
  | .hl' => s.shadow.hl
  | .ix => s.ix
  | .iy => s.iy
  | .sp => s.sp
  | .pc => s.pc

/-- Changes a word register or a pair. -/
def writePair (s : Registers) (name : Reg16) (value : Word) : Registers :=
  match name with
  | .af => { s with toBank := s.setAf value }
  | .bc => { s with toBank := s.setBc value }
  | .de => { s with toBank := s.setDe value }
  | .hl => { s with toBank := s.setHl value }
  | .af' => { s with shadow := s.shadow.setAf value }
  | .bc' => { s with shadow := s.shadow.setBc value }
  | .de' => { s with shadow := s.shadow.setDe value }
  | .hl' => { s with shadow := s.shadow.setHl value }
  | .ix => { s with ix := value }
  | .iy => { s with iy := value }
  | .sp => { s with sp := value }
  | .pc => { s with pc := value }

/-- Swaps the accumulator and the flags with their shadows. -/
def exchangeAf (s : Registers) : Registers :=
  { s with
    a := s.shadow.a
    f := s.shadow.f
    shadow := { s.shadow with a := s.a, f := s.f } }

/-- Swaps the three general pairs with their shadows. -/
def exchangeShadow (s : Registers) : Registers :=
  { s with
    toBank := { s.shadow with a := s.a, f := s.f }
    shadow := { s.toBank with a := s.shadow.a, f := s.shadow.f } }

/-- Swaps two of the general pairs. -/
def exchangeDeHl (s : Registers) : Registers :=
  { s with d := s.h, e := s.l, h := s.d, l := s.e }

/-- Counts one refreshed row: seven bits count and bit 7 stays. -/
def refresh (s : Registers) : Registers :=
  { s with r := BitVec.ofBool s.r.msb ++ (s.r.extractLsb' 0 7 + 1) }

/-- Changes the interrupt mode to 0, 1 or 2. -/
def setInterruptMode (s : Registers) (mode : Byte) : Except Error Registers :=
  if mode.toNat ≤ 2 then .ok { s with im := mode } else .error (.invalidInterruptMode mode)

@[simp] theorem read8_write8_self (s : Registers) (name : Reg8) (value : Byte) :
    (s.write8 name value).read8 name = value := by
  cases name <;> simp [read8, write8]

@[simp] theorem readPair_writePair_self (s : Registers) (name : Reg16) (value : Word) :
    (s.writePair name value).readPair name = value := by
  cases name <;>
    simp [readPair, writePair, Bank.af, Bank.bc, Bank.de, Bank.hl, Bank.setAf, Bank.setBc,
      Bank.setDe, Bank.setHl]

end Registers
end Z80Machine
