import Mathlib.Data.BitVec
import Z80Machine.Proofs.Frames

/-!
# The stack

Pushing words and popping as many gives them back, the last one first.  What keeps them apart is
that each has two bytes of its own below the stack pointer of the beginning (`Holds`), and there
is room for 32768 words: then the stack fills all of memory, and the last byte lies where the
stack pointer has pointed to.  Pushing adds a word to those that are held (`Holds.push`), popping
takes the last one away (`Holds.pop`), and `stack_last_in_first_out` says what becomes of a whole
list of words.
-/

namespace Z80Machine

namespace Word

/-- The address of byte `k`, from zero on, below an address. -/
def below (w : Word) (k : Nat) : Word := w - 1 - BitVec.ofNat 16 k

/-- The byte below a number of bytes is the next one. -/
theorem sub_ofNat_eq_below (w : Word) (k : Nat) : w - BitVec.ofNat 16 k - 1 = w.below k := by
  rw [below, sub_right_comm]

theorem below_sub_one (w : Word) (k : Nat) : w.below k - 1 = w.below (k + 1) := by
  rw [below, below, BitVec.ofNat_add, ← BitVec.sub_sub]
  rfl

theorem below_add_one (w : Word) (k : Nat) : w.below (k + 1) + 1 = w.below k := by
  rw [← below_sub_one]
  exact BitVec.sub_add_cancel (w.below k) 1

/-- Below an address there are 65536 different ones. -/
theorem below_ne {w : Word} {j k : Nat} (hj : j < 65536) (hk : k < 65536) (hne : j ≠ k) :
    w.below j ≠ w.below k := by
  intro heq
  rw [below, below, sub_right_inj, ← BitVec.toNat_inj, BitVec.toNat_ofNat, BitVec.toNat_ofNat,
    Nat.mod_eq_of_lt hj, Nat.mod_eq_of_lt hk] at heq
  exact hne heq

/-- Two bytes for one more element of a list. -/
theorem sub_ofNat_concat {α : Type} (w : Word) (xs : List α) (x : α) :
    w - BitVec.ofNat 16 (2 * (xs ++ [x]).length) = w - BitVec.ofNat 16 (2 * xs.length) - 2 := by
  rw [List.length_append, List.length_singleton, Nat.mul_add, BitVec.ofNat_add, ← BitVec.sub_sub]
  rfl

end Word

namespace Machine

/-- Pushes words one after the other. -/
def pushAll (m : Machine) (words : List Word) : Machine := words.foldl push m

/-- Pops a number of words.  The word that is popped first is the first of the list. -/
def popMany (m : Machine) : Nat → List Word × Machine
  | 0 => ([], m)
  | n + 1 =>
      let (value, m) := m.pop
      let (rest, m) := m.popMany n
      (value :: rest, m)

variable {m : Machine}

/-! ### One word -/

theorem cpu_push (m : Machine) (value : Word) :
    (m.push value).toCpu = { m.toCpu with registers.sp := m.registers.sp - 2 } := by
  rw [(extends_push m value).cpu, registers_push, Word.sub_one_sub_one]

theorem cpu_pop (m : Machine) :
    m.pop.2.toCpu = { m.toCpu with registers.sp := m.registers.sp + 2 } := by
  rw [(extends_pop m).cpu, registers_pop, BitVec.add_assoc]
  rfl

theorem ram_pop (m : Machine) : m.pop.2.bus.ram = m.bus.ram := rfl

/-! ### Words on the stack -/

/-- The stack holds words below an address: the first of the list next to it, the last at the
stack pointer, and each with its high byte above its low one. -/
structure Holds (m : Machine) (base : Word) (words : List Word) : Prop where
  sp : m.registers.sp = base - BitVec.ofNat 16 (2 * words.length)
  high : ∀ i w, words[i]? = some w → m.bus.ram.get (base.below (2 * i)) = w.high
  low : ∀ i w, words[i]? = some w → m.bus.ram.get (base.below (2 * i + 1)) = w.low

variable {base : Word} {words : List Word}

theorem Holds.nil (m : Machine) : m.Holds m.registers.sp [] where
  sp := by simp
  high i w hw := by simp at hw
  low i w hw := by simp at hw

/-- The next word goes to the next two bytes. -/
theorem Holds.ram_push (h : m.Holds base words) (value : Word) :
    (m.push value).bus.ram =
      (m.bus.ram.set (base.below (2 * words.length)) value.high).set
        (base.below (2 * words.length + 1)) value.low := by
  rw [Machine.ram_push, h.sp, Word.sub_ofNat_eq_below, Word.below_sub_one]

theorem Holds.get_push (h : m.Holds base words) (value a : Word)
    (hhigh : a ≠ base.below (2 * words.length)) (hlow : a ≠ base.below (2 * words.length + 1)) :
    (m.push value).bus.ram.get a = m.bus.ram.get a := by
  rw [h.ram_push, Cells.get_set_of_ne _ _ hlow, Cells.get_set_of_ne _ _ hhigh]

theorem Holds.push (h : m.Holds base words) (value : Word) (hroom : words.length < 32768) :
    (m.push value).Holds base (words ++ [value]) := by
  have hsplit {i : Nat} {w : Word} (hw : (words ++ [value])[i]? = some w) :
      (i < words.length ∧ words[i]? = some w) ∨ (i = words.length ∧ w = value) := by
    rcases Nat.lt_trichotomy i words.length with hlt | rfl | hgt
    · exact .inl ⟨hlt, by rwa [List.getElem?_append_left hlt] at hw⟩
    · exact .inr ⟨rfl, by simpa using hw.symm⟩
    · rw [List.getElem?_eq_none (by simp; omega)] at hw
      contradiction
  refine ⟨?_, ?_, ?_⟩
  · show (m.push value).registers.sp = _
    rw [cpu_push, Word.sub_ofNat_concat]
    dsimp only
    rw [h.sp]
  · intro i w hw
    rcases hsplit hw with ⟨hlt, hold⟩ | ⟨rfl, rfl⟩
    · rw [h.get_push, h.high i w hold]
      · exact Word.below_ne (by omega) (by omega) (by omega)
      · exact Word.below_ne (by omega) (by omega) (by omega)
    · rw [h.ram_push, Cells.get_set_of_ne, Cells.get_set_self]
      exact Word.below_ne (by omega) (by omega) (by omega)
  · intro i w hw
    rcases hsplit hw with ⟨hlt, hold⟩ | ⟨rfl, rfl⟩
    · rw [h.get_push, h.low i w hold]
      · exact Word.below_ne (by omega) (by omega) (by omega)
      · exact Word.below_ne (by omega) (by omega) (by omega)
    · rw [h.ram_push, Cells.get_set_self]

/-- The word that is popped is the last one held. -/
theorem Holds.fst_pop {value : Word} (h : m.Holds base (words ++ [value])) :
    m.pop.1 = value := by
  have hlast : (words ++ [value])[words.length]? = some value := by simp
  have hsp : m.registers.sp = base.below (2 * words.length + 1) := by
    rw [h.sp, Word.sub_ofNat_concat, ← Word.below_sub_one, ← Word.sub_ofNat_eq_below,
      Word.sub_one_sub_one]
  rw [Machine.fst_pop, hsp, Word.below_add_one, h.high _ _ hlast, h.low _ _ hlast,
    Word.ofBytes_high_low]

theorem Holds.pop {value : Word} (h : m.Holds base (words ++ [value])) :
    m.pop.2.Holds base words := by
  have hstill {i : Nat} {w : Word} (hw : words[i]? = some w) :
      (words ++ [value])[i]? = some w := by
    obtain ⟨hlt, -⟩ := List.getElem?_eq_some_iff.mp hw
    rwa [List.getElem?_append_left hlt]
  refine ⟨?_, ?_, ?_⟩
  · show m.pop.2.registers.sp = _
    rw [cpu_pop]
    dsimp only
    rw [h.sp, Word.sub_ofNat_concat]
    exact BitVec.sub_add_cancel _ 2
  · intro i w hw
    exact h.high i w (hstill hw)
  · intro i w hw
    exact h.low i w (hstill hw)

/-! ### Many words -/

theorem pushAll_concat (m : Machine) (words : List Word) (value : Word) :
    m.pushAll (words ++ [value]) = (m.pushAll words).push value :=
  List.foldl_concat ..

/-- While there is room, all words that are pushed are held. -/
theorem holds_pushAll (m : Machine) (hroom : words.length ≤ 32768) :
    (m.pushAll words).Holds m.registers.sp words := by
  induction words using List.reverseRecOn with
  | nil => exact .nil m
  | append_singleton words value ih =>
      rw [List.length_append, List.length_singleton] at hroom
      rw [pushAll_concat]
      exact (ih (by omega)).push value (by omega)

theorem cpu_pushAll (m : Machine) (words : List Word) :
    (m.pushAll words).toCpu =
      { m.toCpu with
        registers.sp := m.registers.sp - BitVec.ofNat 16 (2 * words.length) } := by
  induction words using List.reverseRecOn with
  | nil => simp [pushAll]
  | append_singleton words value ih =>
      rw [pushAll_concat, cpu_push, ih, Word.sub_ofNat_concat]

/-- Bytes that are not among those below the stack pointer stay as they are. -/
theorem get_pushAll (m : Machine) (hroom : words.length ≤ 32768) {a : Word}
    (ha : ∀ k < 2 * words.length, a ≠ m.registers.sp.below k) :
    (m.pushAll words).bus.ram.get a = m.bus.ram.get a := by
  induction words using List.reverseRecOn with
  | nil => rfl
  | append_singleton words value ih =>
      rw [List.length_append, List.length_singleton] at hroom ha
      rw [pushAll_concat, (holds_pushAll m (by omega)).get_push]
      · exact ih (by omega) fun k hk => ha k (by omega)
      · exact ha _ (by omega)
      · exact ha _ (by omega)

theorem popMany_succ (m : Machine) (n : Nat) :
    m.popMany (n + 1) = (m.pop.1 :: (m.pop.2.popMany n).1, (m.pop.2.popMany n).2) := rfl

theorem cpu_popMany (m : Machine) (n : Nat) :
    (m.popMany n).2.toCpu =
      { m.toCpu with registers.sp := m.registers.sp + BitVec.ofNat 16 (2 * n) } := by
  induction n generalizing m with
  | zero => simp [popMany]
  | succ n ih =>
      rw [popMany_succ, ih, cpu_pop, Nat.mul_succ, Nat.add_comm, BitVec.ofNat_add]
      dsimp only
      rw [BitVec.add_assoc]
      rfl

theorem ram_popMany (m : Machine) (n : Nat) : (m.popMany n).2.bus.ram = m.bus.ram := by
  induction n generalizing m with
  | zero => rfl
  | succ n ih => rw [popMany_succ, ih, ram_pop]

/-- Words come back in the opposite order. -/
theorem fst_popMany (h : m.Holds base words) {n : Nat} (hn : n ≤ words.length) :
    (m.popMany n).1 = words.reverse.take n := by
  induction n generalizing m words with
  | zero => rfl
  | succ n ih =>
      cases words using List.reverseRecOn with
      | nil => simp at hn
      | append_singleton words value =>
          rw [List.length_append, List.length_singleton] at hn
          rw [popMany_succ, h.fst_pop, ih h.pop (by omega), List.reverse_concat,
            List.take_succ_cons]

/-- Up to 32768 words that are pushed come back in the opposite order when they are popped, and
the processor is then as it was.  On the way the stack pointer counts up by two for each word.
Word number `i` lies below the stack pointer of the beginning, with its high byte at the distance
`1 + 2 * i` and its low byte one below, and all other bytes of memory are as they were. -/
theorem stack_last_in_first_out (m : Machine) (words : List Word)
    (hroom : words.length ≤ 32768) :
    ((m.pushAll words).popMany words.length).1 = words.reverse ∧
      ((m.pushAll words).popMany words.length).2.toCpu = m.toCpu ∧
      (∀ n ≤ words.length,
        ((m.pushAll words).popMany n).1 = words.reverse.take n ∧
        ((m.pushAll words).popMany n).2.registers =
          { m.registers with
            sp := m.registers.sp - BitVec.ofNat 16 (2 * (words.length - n)) } ∧
        ((m.pushAll words).popMany n).2.bus.ram = (m.pushAll words).bus.ram) ∧
      (∀ i w, words[i]? = some w →
        (m.pushAll words).bus.ram.get (m.registers.sp - 1 - BitVec.ofNat 16 (2 * i)) = w.high ∧
        (m.pushAll words).bus.ram.get (m.registers.sp - 2 - BitVec.ofNat 16 (2 * i)) = w.low) ∧
      ∀ a : Word, (∀ k < 2 * words.length, a ≠ m.registers.sp - 1 - BitVec.ofNat 16 k) →
        (m.pushAll words).bus.ram.get a = m.bus.ram.get a := by
  have hholds := holds_pushAll m hroom
  have hcpu {n : Nat} (hn : n ≤ words.length) :
      ((m.pushAll words).popMany n).2.toCpu =
        { m.toCpu with
          registers.sp := m.registers.sp - BitVec.ofNat 16 (2 * (words.length - n)) } := by
    have hsplit : 2 * words.length = 2 * (words.length - n) + 2 * n := by omega
    rw [cpu_popMany, cpu_pushAll]
    dsimp only
    rw [hsplit, BitVec.ofNat_add, ← BitVec.sub_sub, BitVec.sub_add_cancel]
  refine ⟨?_, ?_, ?_, ?_, ?_⟩
  · rw [fst_popMany hholds (Nat.le_refl _), ← List.length_reverse, List.take_length]
  · rw [hcpu (Nat.le_refl _), Nat.sub_self, Nat.mul_zero]
    simp
  · intro n hn
    exact ⟨fst_popMany hholds hn, congrArg Cpu.registers (hcpu hn), ram_popMany _ n⟩
  · intro i w hw
    have hlow : m.registers.sp - 2 - BitVec.ofNat 16 (2 * i) =
        m.registers.sp.below (2 * i + 1) := by
      rw [← Word.below_sub_one, Word.below, ← Word.sub_one_sub_one, sub_right_comm]
    rw [hlow]
    exact ⟨hholds.high i w hw, hholds.low i w hw⟩
  · intro a ha
    exact get_pushAll m hroom ha

/-- A machine whose stack begins just above the start of memory. -/
def stackExample : Machine where
  registers := { sp := 0x0001, a := 0x5A }

/-- The numbers from zero to 32767. -/
def stackNumbers : List Word := (List.range 32768).map (BitVec.ofNat 16)

/-- As many words as there is room for come back, and the last of them reaches the byte that the
stack pointer has pointed to. -/
theorem stack_fills_memory :
    stackNumbers.length ≤ 32768 ∧
      ((stackExample.pushAll stackNumbers).popMany stackNumbers.length).1 =
        stackNumbers.reverse ∧
      ((stackExample.pushAll stackNumbers).popMany stackNumbers.length).2.registers.sp = 0x0001 ∧
      (stackExample.pushAll stackNumbers).bus.ram.get 0x0001 = 0xFF := by
  have hroom : stackNumbers.length ≤ 32768 := by simp [stackNumbers]
  obtain ⟨hwords, hcpu, -, hbytes, -⟩ := stack_last_in_first_out stackExample stackNumbers hroom
  have hlast : stackNumbers[32767]? = some 0x7FFF := by simp [stackNumbers]
  obtain ⟨-, hlow⟩ := hbytes 32767 0x7FFF hlast
  exact ⟨hroom, hwords, congrArg (·.registers.sp) hcpu, hlow⟩

end Machine
end Z80Machine
