import Mathlib.Logic.Equiv.Basic
import Z80Machine.Instruction.Encoding

/-!
# Pointer registers

HL, IX and IY are the registers that an encoding can put in each other's place.  A
permutation of the three renames registers (`Reg16.rename`, `Reg8.rename`) and moves what
they hold (`Registers.rearrange`).  After the move the new name reads what the old name read
before (`readPair_rearrange`, `read8_rearrange`), and it makes no difference whether one
writes before or after it (`writePair_rearrange`, `write8_rearrange`).
-/

namespace Z80Machine

namespace Pointer

/-- The high byte of a pointer register. -/
def high : Pointer → Reg8
  | .hl => .h
  | .index .ix => .ixh
  | .index .iy => .iyh

/-- The low byte of a pointer register. -/
def low : Pointer → Reg8
  | .hl => .l
  | .index .ix => .ixl
  | .index .iy => .iyl

@[simp] theorem substitute_h (p : Pointer) : p.substitute .h = p.high := by
  rcases p with _ | _ | _ <;> rfl

@[simp] theorem substitute_l (p : Pointer) : p.substitute .l = p.low := by
  rcases p with _ | _ | _ <;> rfl

/-- Only H and L are replaced. -/
theorem substitute_of_ne (p : Pointer) {name : Reg8} (hh : name ≠ .h) (hl : name ≠ .l) :
    p.substitute name = name := by
  rcases p with _ | _ | _ <;> cases name <;> first | rfl | contradiction

/-- Where HL stays, index registers take the place of index registers. -/
theorem exists_index {π : Equiv.Perm Pointer} (hhl : π .hl = .hl) (x : Index) :
    ∃ y, π (.index x) = .index y := by
  cases h : π (.index x) with
  | hl => exact absurd (π.injective (h.trans hhl.symm)) Pointer.noConfusion
  | index y => exact ⟨y, rfl⟩

end Pointer

variable (π : Equiv.Perm Pointer)

/-- The word register to which a permutation of the pointer registers takes another. -/
def Reg16.rename : Reg16 → Reg16
  | .hl => (π .hl).register
  | .ix => (π (.index .ix)).register
  | .iy => (π (.index .iy)).register
  | name => name

/-- The byte register to which a permutation of the pointer registers takes another. -/
def Reg8.rename : Reg8 → Reg8
  | .h => (π .hl).high
  | .l => (π .hl).low
  | .ixh => (π (.index .ix)).high
  | .ixl => (π (.index .ix)).low
  | .iyh => (π (.index .iy)).high
  | .iyl => (π (.index .iy)).low
  | name => name

@[simp] theorem Reg16.rename_bc : Reg16.rename π .bc = .bc := rfl

@[simp] theorem Reg16.rename_de : Reg16.rename π .de = .de := rfl

@[simp] theorem Reg16.rename_sp : Reg16.rename π .sp = .sp := rfl

@[simp] theorem Reg8.rename_a : Reg8.rename π .a = .a := rfl

theorem Reg16.rename_hl {π : Equiv.Perm Pointer} (hhl : π .hl = .hl) :
    Reg16.rename π .hl = .hl := by
  rw [Reg16.rename, hhl]
  rfl

@[simp] theorem rename_register (p : Pointer) : p.register.rename π = (π p).register := by
  rcases p with _ | _ | _ <;> rfl

@[simp] theorem rename_high (p : Pointer) : p.high.rename π = (π p).high := by
  rcases p with _ | _ | _ <;> rfl

@[simp] theorem rename_low (p : Pointer) : p.low.rename π = (π p).low := by
  rcases p with _ | _ | _ <;> rfl

namespace Registers

variable (s : Registers)

/-! ### The contents of the pointer registers -/

/-- What the pointer registers hold. -/
def pointers (p : Pointer) : Word := s.readPair p.register

/-- Changes what the pointer registers hold. -/
def withPointers (g : Pointer → Word) : Registers :=
  { s with h := (g .hl).high, l := (g .hl).low, ix := g (.index .ix), iy := g (.index .iy) }

@[simp] theorem pointers_withPointers (g : Pointer → Word) : (s.withPointers g).pointers = g := by
  funext p
  rcases p with _ | _ | _
  · exact Word.ofBytes_high_low (g .hl)
  · rfl
  · rfl

@[simp] theorem withPointers_pointers : s.withPointers s.pointers = s := by
  simp [withPointers, pointers, Pointer.register, Index.register, readPair, Bank.hl]

/-- Writing one pointer register. -/
theorem writePair_register (p : Pointer) (value : Word) :
    s.writePair p.register value = s.withPointers (Function.update s.pointers p value) := by
  rcases p with _ | _ | _ <;>
    simp [withPointers, pointers, Pointer.register, Index.register, readPair, writePair, Bank.hl,
      Bank.setHl]

/-- A byte of a pointer register is written with the other byte as it is. -/
theorem write8_high (p : Pointer) (value : Byte) :
    s.write8 p.high value = s.writePair p.register (.ofBytes value (s.pointers p).low) := by
  rcases p with _ | _ | _ <;>
    simp [pointers, Pointer.high, Pointer.register, Index.register, readPair, writePair, write8,
      Bank.hl, Bank.setHl]

theorem write8_low (p : Pointer) (value : Byte) :
    s.write8 p.low value = s.writePair p.register (.ofBytes (s.pointers p).high value) := by
  rcases p with _ | _ | _ <;>
    simp [pointers, Pointer.low, Pointer.register, Index.register, readPair, writePair, write8,
      Bank.hl, Bank.setHl]

theorem read8_high (p : Pointer) : s.read8 p.high = (s.pointers p).high := by
  rcases p with _ | _ | _ <;>
    simp [pointers, Pointer.high, Pointer.register, Index.register, readPair, read8, Bank.hl]

theorem read8_low (p : Pointer) : s.read8 p.low = (s.pointers p).low := by
  rcases p with _ | _ | _ <;>
    simp [pointers, Pointer.low, Pointer.register, Index.register, readPair, read8, Bank.hl]

/-! ### Moving the contents -/

/-- Moves what each pointer register holds to the one that the permutation names. -/
def rearrange : Registers := s.withPointers (s.pointers ∘ π.symm)

@[simp] theorem rearrange_refl : s.rearrange (Equiv.refl Pointer) = s := s.withPointers_pointers

@[simp] theorem pointers_rearrange (p : Pointer) :
    (s.rearrange π).pointers (π p) = s.pointers p := by
  simp [rearrange]

/-- Moving the contents back. -/
theorem rearrange_symm_rearrange : (s.rearrange π.symm).rearrange π = s := by
  have hback : (s.pointers ∘ π) ∘ π.symm = s.pointers := by
    rw [Function.comp_assoc, Equiv.self_comp_symm, Function.comp_id]
  rw [rearrange, rearrange, pointers_withPointers, Equiv.symm_symm, hback]
  exact s.withPointers_pointers

/-- A change that leaves the pointer registers alone can be made before the move or after. -/
theorem update_rearrange (f : Registers → Registers)
    (hf : ∀ s g, f (s.withPointers g) = (f s).withPointers g) :
    f (s.rearrange π) = (f s).rearrange π := by
  have hpointers : (f s).pointers = s.pointers := by
    conv => lhs; rw [← s.withPointers_pointers, hf, pointers_withPointers]
  rw [rearrange, hf, rearrange, hpointers]

theorem readPair_rearrange (name : Reg16) :
    (s.rearrange π).readPair (name.rename π) = s.readPair name := by
  cases name with
  | hl => exact s.pointers_rearrange π .hl
  | ix => exact s.pointers_rearrange π (.index .ix)
  | iy => exact s.pointers_rearrange π (.index .iy)
  | _ => rfl

theorem read8_rearrange (name : Reg8) : (s.rearrange π).read8 (name.rename π) = s.read8 name := by
  have hhigh (p : Pointer) : (s.rearrange π).read8 (π p).high = s.read8 p.high := by
    rw [read8_high, read8_high, pointers_rearrange]
  have hlow (p : Pointer) : (s.rearrange π).read8 (π p).low = s.read8 p.low := by
    rw [read8_low, read8_low, pointers_rearrange]
  cases name with
  | h => exact hhigh .hl
  | l => exact hlow .hl
  | ixh => exact hhigh (.index .ix)
  | ixl => exact hlow (.index .ix)
  | iyh => exact hhigh (.index .iy)
  | iyl => exact hlow (.index .iy)
  | _ => rfl

theorem writePair_register_rearrange (p : Pointer) (value : Word) :
    (s.rearrange π).writePair (π p).register value =
      (s.writePair p.register value).rearrange π := by
  have hupdate : Function.update (s.pointers ∘ π.symm) (π p) value =
      Function.update s.pointers p value ∘ π.symm := by
    rw [Function.update_comp_equiv, Equiv.symm_symm]
  rw [writePair_register, writePair_register, rearrange, rearrange, pointers_withPointers,
    pointers_withPointers, hupdate]
  rfl

theorem writePair_rearrange (name : Reg16) (value : Word) :
    (s.rearrange π).writePair (name.rename π) value = (s.writePair name value).rearrange π := by
  cases name with
  | hl => exact s.writePair_register_rearrange π .hl value
  | ix => exact s.writePair_register_rearrange π (.index .ix) value
  | iy => exact s.writePair_register_rearrange π (.index .iy) value
  | _ => exact s.update_rearrange π (·.writePair _ value) fun _ _ => rfl

theorem write8_rearrange (name : Reg8) (value : Byte) :
    (s.rearrange π).write8 (name.rename π) value = (s.write8 name value).rearrange π := by
  have hhigh (p : Pointer) :
      (s.rearrange π).write8 (π p).high value = (s.write8 p.high value).rearrange π := by
    rw [write8_high, write8_high, pointers_rearrange, writePair_register_rearrange]
  have hlow (p : Pointer) :
      (s.rearrange π).write8 (π p).low value = (s.write8 p.low value).rearrange π := by
    rw [write8_low, write8_low, pointers_rearrange, writePair_register_rearrange]
  cases name with
  | h => exact hhigh .hl
  | l => exact hlow .hl
  | ixh => exact hhigh (.index .ix)
  | ixl => exact hlow (.index .ix)
  | iyh => exact hhigh (.index .iy)
  | iyl => exact hlow (.index .iy)
  | _ => exact s.update_rearrange π (·.write8 _ value) fun _ _ => rfl

/-! ### Where HL stays -/

variable {π}

/-- Only the index registers change if the permutation leaves HL where it is. -/
theorem rearrange_of_hl (hhl : π .hl = .hl) :
    s.rearrange π =
      { s with
        ix := s.pointers (π.symm (.index .ix))
        iy := s.pointers (π.symm (.index .iy)) } := by
  have hsymm : π.symm .hl = .hl := π.symm_apply_eq.mpr hhl.symm
  simp [rearrange, withPointers, hsymm, pointers, Pointer.register, readPair, Bank.hl]

/-- A change that leaves the index registers alone can be made before the move or after. -/
theorem update_rearrange_of_hl (hhl : π .hl = .hl) (f : Registers → Registers)
    (hf : ∀ s ix iy, f { s with ix, iy } = { f s with ix, iy }) :
    f (s.rearrange π) = (f s).rearrange π := by
  have hpointers (x : Index) : (f s).pointers (.index x) = s.pointers (.index x) := by
    rw [hf s s.ix s.iy]
    cases x <;> rfl
  have hsymm : π.symm .hl = .hl := π.symm_apply_eq.mpr hhl.symm
  obtain ⟨x, hx⟩ := Pointer.exists_index hsymm .ix
  obtain ⟨y, hy⟩ := Pointer.exists_index hsymm .iy
  rw [rearrange_of_hl _ hhl, rearrange_of_hl _ hhl, hf, hx, hy, hpointers, hpointers]

end Registers
end Z80Machine
