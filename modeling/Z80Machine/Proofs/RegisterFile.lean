import Mathlib.Logic.Equiv.Basic
import Z80Machine.Proofs.Status

/-!
# The names of the register file

Fourteen names stand for bytes and twelve for words, and a write through one name shows in
another just if the two share a byte (`Overlap`).  A pair whose halves have names of their own is
read and written like these two (`readPair_of_halves`, `writePair_of_halves`), so what holds of
pairs follows from what holds of bytes; the other words share nothing with a byte.  The exchanges
of registers give the words each other's contents and do nothing else (`Exchanges`).
`register_file_laws` puts all of this together.
-/

namespace Z80Machine

/-- The names of the high and the low byte of a word, if they have any. -/
def Reg16.halves? : Reg16 → Option (Reg8 × Reg8)
  | .af => some (.a, .f)
  | .bc => some (.b, .c)
  | .de => some (.d, .e)
  | .hl => some (.h, .l)
  | .ix => some (.ixh, .ixl)
  | .iy => some (.iyh, .iyl)
  | .af' | .bc' | .de' | .hl' | .sp | .pc => none

/-- A byte register is one of the halves of a word. -/
def Reg16.Contains (word : Reg16) (byte : Reg8) : Prop :=
  ∃ high low, word.halves? = some (high, low) ∧ (byte = high ∨ byte = low)

/-- What the registers are called. -/
inductive RegisterName where
  | byte (name : Reg8)
  | word (name : Reg16)
  deriving DecidableEq

namespace RegisterName

/-- The number of bits behind a name. -/
def width : RegisterName → Nat
  | byte _ => 8
  | word _ => 16

/-- Two names share a byte of the register file. -/
def Overlap : RegisterName → RegisterName → Prop
  | byte x, byte y => x = y
  | word x, word y => x = y
  | word x, byte y => x.Contains y
  | byte x, word y => y.Contains x

end RegisterName

namespace Registers

/-- What a name reads. -/
def get (s : Registers) : (x : RegisterName) → BitVec x.width
  | .byte name => s.read8 name
  | .word name => s.readPair name

/-- Writes through a name. -/
def set (s : Registers) : (x : RegisterName) → BitVec x.width → Registers
  | .byte name, value => s.write8 name value
  | .word name, value => s.writePair name value

variable (s : Registers)

/-! ### Bytes -/

theorem read8_write8_of_ne {x y : Reg8} (hne : x ≠ y) (value : Byte) :
    (s.write8 x value).read8 y = s.read8 y := by
  -- only the two halves of an index register lie in one field
  cases x <;> cases y <;> first | rfl | exact absurd rfl hne | simp [write8, read8]

@[simp] theorem write8_read8 (name : Reg8) : s.write8 name (s.read8 name) = s := by
  cases name <;> simp [write8, read8]

/-! ### Words with names for their halves -/

variable {word : Reg16} {high low : Reg8}

theorem readPair_of_halves (h : word.halves? = some (high, low)) :
    s.readPair word = .ofBytes (s.read8 high) (s.read8 low) := by
  cases word <;> cases h <;> first | rfl | exact (Word.ofBytes_high_low _).symm

theorem writePair_of_halves (h : word.halves? = some (high, low)) (value : Word) :
    s.writePair word value = (s.write8 high value.high).write8 low value.low := by
  cases word <;> cases h <;> first | rfl | simp [writePair, write8]

theorem readPair_write8_of_not_contains {byte : Reg8} (hout : ¬word.Contains byte)
    (value : Byte) : (s.write8 byte value).readPair word = s.readPair word := by
  cases hhalves : word.halves? with
  | some halves =>
      obtain ⟨high, low⟩ := halves
      have hhigh : byte ≠ high := fun h => hout ⟨high, low, hhalves, .inl h⟩
      have hlow : byte ≠ low := fun h => hout ⟨high, low, hhalves, .inr h⟩
      rw [readPair_of_halves _ hhalves, readPair_of_halves _ hhalves,
        read8_write8_of_ne s hhigh, read8_write8_of_ne s hlow]
  | none =>
      -- no byte register lies in the fields of such a word
      cases word <;> first | contradiction | (cases byte <;> rfl)

theorem read8_writePair_of_not_contains {byte : Reg8} (hout : ¬word.Contains byte)
    (value : Word) : (s.writePair word value).read8 byte = s.read8 byte := by
  cases hhalves : word.halves? with
  | some halves =>
      obtain ⟨high, low⟩ := halves
      have hhigh : high ≠ byte := fun h => hout ⟨high, low, hhalves, .inl h.symm⟩
      have hlow : low ≠ byte := fun h => hout ⟨high, low, hhalves, .inr h.symm⟩
      rw [writePair_of_halves s hhalves, read8_write8_of_ne _ hlow, read8_write8_of_ne s hhigh]
  | none => cases word <;> first | contradiction | (cases byte <;> rfl)

theorem readPair_writePair_of_ne {v w : Reg16} (hne : v ≠ w) (value : Word) :
    (s.writePair v value).readPair w = s.readPair w := by
  cases v <;> cases w <;> first | rfl | exact absurd rfl hne

@[simp] theorem writePair_readPair (name : Reg16) : s.writePair name (s.readPair name) = s := by
  cases hhalves : name.halves? with
  | some halves =>
      obtain ⟨high, low⟩ := halves
      have hback : (s.write8 high (s.read8 high)).write8 low (s.read8 low) = s := by
        rw [write8_read8, write8_read8]
      rwa [writePair_of_halves s hhalves, readPair_of_halves s hhalves, Word.high_ofBytes,
        Word.low_ofBytes]
  | none =>
      cases name <;> first
        | contradiction
        | simp [writePair, readPair, Bank.setAf, Bank.af, Bank.setBc, Bank.bc, Bank.setDe, Bank.de,
            Bank.setHl, Bank.hl]

/-! ### All names -/

theorem get_set_self (x : RegisterName) (value : BitVec x.width) :
    (s.set x value).get x = value := by
  cases x with
  | byte name => exact s.read8_write8_self name value
  | word name => exact s.readPair_writePair_self name value

theorem set_get (x : RegisterName) : s.set x (s.get x) = s := by
  cases x with
  | byte name => exact s.write8_read8 name
  | word name => exact s.writePair_readPair name

theorem get_set_of_not_overlap {x y : RegisterName} (hapart : ¬x.Overlap y)
    (value : BitVec x.width) : (s.set x value).get y = s.get y := by
  match x, y with
  | .byte _, .byte _ => exact s.read8_write8_of_ne hapart value
  | .byte _, .word _ => exact s.readPair_write8_of_not_contains hapart value
  | .word _, .byte _ => exact s.read8_writePair_of_not_contains hapart value
  | .word _, .word _ => exact s.readPair_writePair_of_ne hapart value

theorem status_set (x : RegisterName) (value : BitVec x.width) :
    (s.set x value).status = s.status := by
  cases x with
  | byte name => exact s.status_write8 name value
  | word name => exact s.status_writePair name value

/-! ### Exchanges -/

/-- Every byte register but two is a half of a word. -/
theorem exists_word (name : Reg8) :
    name = .i ∨ name = .r ∨ ∃ word : Reg16, word.Contains name := by
  cases name with
  | i => exact .inl rfl
  | r => exact .inr (.inl rfl)
  | a => exact .inr (.inr ⟨.af, _, _, rfl, .inl rfl⟩)
  | f => exact .inr (.inr ⟨.af, _, _, rfl, .inr rfl⟩)
  | b => exact .inr (.inr ⟨.bc, _, _, rfl, .inl rfl⟩)
  | c => exact .inr (.inr ⟨.bc, _, _, rfl, .inr rfl⟩)
  | d => exact .inr (.inr ⟨.de, _, _, rfl, .inl rfl⟩)
  | e => exact .inr (.inr ⟨.de, _, _, rfl, .inr rfl⟩)
  | h => exact .inr (.inr ⟨.hl, _, _, rfl, .inl rfl⟩)
  | l => exact .inr (.inr ⟨.hl, _, _, rfl, .inr rfl⟩)
  | ixh => exact .inr (.inr ⟨.ix, _, _, rfl, .inl rfl⟩)
  | ixl => exact .inr (.inr ⟨.ix, _, _, rfl, .inr rfl⟩)
  | iyh => exact .inr (.inr ⟨.iy, _, _, rfl, .inl rfl⟩)
  | iyl => exact .inr (.inr ⟨.iy, _, _, rfl, .inr rfl⟩)

/-- Words that read alike have halves that read alike. -/
theorem read8_eq_of_contains {s t : Registers} {name : Reg8} (hname : word.Contains name)
    (hword : s.readPair word = t.readPair word) : s.read8 name = t.read8 name := by
  obtain ⟨high, low, hhalves, hname⟩ := hname
  rw [readPair_of_halves s hhalves, readPair_of_halves t hhalves] at hword
  rcases hname with rfl | rfl
  · simpa using congrArg Word.high hword
  · simpa using congrArg Word.low hword

/-- A change of the registers that undoes itself, gives the words each other's contents as `π`
tells, and does nothing else. -/
structure Exchanges (change : Registers → Registers) (π : Equiv.Perm Reg16) : Prop where
  involutive : Function.Involutive change
  readPair : ∀ s name, (change s).readPair name = s.readPair (π name)
  read8 : ∀ s name, (∀ word : Reg16, word.Contains name → π word = word) →
    (change s).read8 name = s.read8 name
  status : ∀ s, (change s).status = s.status

/-- Where the words are read as `π` tells, bytes outside the words that move read as before. -/
theorem exchanges_of_readPair {change : Registers → Registers} {π : Equiv.Perm Reg16}
    (hinvolutive : Function.Involutive change)
    (hword : ∀ s name, (change s).readPair name = s.readPair (π name))
    (hi : ∀ s, (change s).i = s.i) (hr : ∀ s, (change s).r = s.r)
    (hstatus : ∀ s, (change s).status = s.status) : Exchanges change π where
  involutive := hinvolutive
  readPair := hword
  read8 s name hfixed := by
    obtain rfl | rfl | ⟨word, hname⟩ := exists_word name
    · exact hi s
    · exact hr s
    · apply read8_eq_of_contains hname
      rw [hword, hfixed word hname]
  status := hstatus

theorem exchanges_exchangeAf : Exchanges exchangeAf (.swap .af .af') :=
  exchanges_of_readPair (fun _ => rfl) (fun _ name => by cases name <;> rfl) (fun _ => rfl)
    (fun _ => rfl) (fun _ => rfl)

theorem exchanges_exchangeShadow :
    Exchanges exchangeShadow
      (((Equiv.swap .bc .bc').trans (.swap .de .de')).trans (.swap .hl .hl')) :=
  exchanges_of_readPair (fun _ => rfl) (fun _ name => by cases name <;> rfl) (fun _ => rfl)
    (fun _ => rfl) (fun _ => rfl)

theorem exchanges_exchangeDeHl : Exchanges exchangeDeHl (.swap .de .hl) :=
  exchanges_of_readPair (fun _ => rfl) (fun _ name => by cases name <;> rfl) (fun _ => rfl)
    (fun _ => rfl) (fun _ => rfl)

/-- What is written through a name is read back, to write what is read changes nothing, and a
write shows in no name but those that overlap the one written, nor in the interrupt and halt
state.  The halves of a word are the bytes that are named so, and the three exchanges move the
contents of words and nothing else. -/
theorem register_file_laws :
    (∀ (s : Registers) (x : RegisterName) (value : BitVec x.width),
      (s.set x value).get x = value ∧
        (∀ y, ¬x.Overlap y → (s.set x value).get y = s.get y) ∧
        (s.set x value).status = s.status) ∧
    (∀ (s : Registers) (x : RegisterName), s.set x (s.get x) = s) ∧
    (∀ (s : Registers) (word : Reg16) (high low : Reg8), word.halves? = some (high, low) →
      (s.readPair word).high = s.read8 high ∧ (s.readPair word).low = s.read8 low) ∧
    Exchanges exchangeAf (.swap .af .af') ∧
    Exchanges exchangeShadow
      (((Equiv.swap .bc .bc').trans (.swap .de .de')).trans (.swap .hl .hl')) ∧
    Exchanges exchangeDeHl (.swap .de .hl) := by
  refine ⟨fun s x value => ⟨s.get_set_self x value, fun y hapart => ?_, s.status_set x value⟩,
    set_get, fun s word high low hhalves => ?_, exchanges_exchangeAf, exchanges_exchangeShadow,
    exchanges_exchangeDeHl⟩
  · exact s.get_set_of_not_overlap hapart value
  · rw [s.readPair_of_halves hhalves]
    exact ⟨Word.high_ofBytes _ _, Word.low_ofBytes _ _⟩

/-- A write to the high half of IX shows in IX and not in IY. -/
theorem write_ixh_beside_iy :
    let s : Registers := { ix := 0xABCD, iy := 0x5678 }
    ¬(RegisterName.byte .ixh).Overlap (.word .iy) ∧
      (s.set (.byte .ixh) 0x12#8).get (.word .iy) = s.get (.word .iy) ∧
      Reg16.halves? .ix = some (.ixh, .ixl) ∧
      ((s.set (.byte .ixh) 0x12#8).readPair .ix).high =
        (s.set (.byte .ixh) 0x12#8).read8 .ixh := by
  intro s
  have hapart : ¬(RegisterName.byte .ixh).Overlap (.word .iy) := by
    rintro ⟨high, low, hhalves, hname⟩
    cases hhalves
    rcases hname with hname | hname <;> exact Reg8.noConfusion hname
  exact ⟨hapart, (register_file_laws.1 s (.byte .ixh) 0x12#8).2.1 _ hapart, rfl,
    (register_file_laws.2.2.1 (s.set (.byte .ixh) 0x12#8) .ix .ixh .ixl rfl).1⟩

end Registers
end Z80Machine
