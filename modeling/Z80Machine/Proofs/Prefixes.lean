import Z80Machine.Proofs.Entries
import Z80Machine.Proofs.Mirrors

/-!
# What a prefix changes

A `DD` or `FD` byte puts an index register in the place of HL, and does nothing else.  Three
statements say so: the two prefixes differ by an exchange of IX and IY
(`executeIndexed_exchangeIndices`), a prefix has no effect before an opcode that does not name
HL (`index_byte_transparent`), and before any opcode without an operand in memory at HL it has
the effect of an exchange of HL with the index register, before the instruction and after it
(`index_byte_exchanges_hl`).  The last two are cases of one simulation: where the main table
for the index register is that for HL with its entries renamed, the step with the prefix
mirrors the step without it (`mirrors_executed`, `step_behind_index`).
-/

namespace Z80Machine

namespace Registers

variable (s : Registers)

/-- Swaps the two index registers. -/
def exchangeIndices : Registers := { s with ix := s.iy, iy := s.ix }

/-- Swaps H and L with the two halves of an index register. -/
def exchangeHl : Index → Registers
  | .ix => { s with h := s.ix.high, l := s.ix.low, ix := s.hl }
  | .iy => { s with h := s.iy.high, l := s.iy.low, iy := s.hl }

theorem rearrange_swap_indices :
    s.rearrange (Equiv.swap (.index .ix) (.index .iy)) = s.exchangeIndices := by
  rw [rearrange_of_hl s (by decide), Equiv.symm_swap, Equiv.swap_apply_left,
    Equiv.swap_apply_right]
  rfl

theorem rearrange_swap_hl (x : Index) :
    s.rearrange (Equiv.swap .hl (.index x)) = s.exchangeHl x := by
  unfold rearrange withPointers
  dsimp only [Function.comp]
  rw [Equiv.symm_swap, Equiv.swap_apply_left]
  cases x with
  | ix =>
      rw [Equiv.swap_apply_right, Equiv.swap_apply_of_ne_of_ne (by decide) (by decide)]
      rfl
  | iy =>
      rw [Equiv.swap_apply_right, Equiv.swap_apply_of_ne_of_ne (by decide) (by decide)]
      rfl

end Registers

/-! ### Naming HL -/

/-- Whether an operand is HL, one of its halves or the byte at HL. -/
def Text.NamesHl (operand : String) : Prop := operand ∈ ["H", "L", "HL", "(HL)"]

instance (operand : String) : Decidable (Text.NamesHl operand) :=
  inferInstanceAs (Decidable (_ ∈ _))

/-- Whether the statement for an instruction names HL, one of its halves or the byte at HL. -/
def Instruction.NamesHl (i : Instruction) : Prop :=
  ∃ operand ∈ i.statement.operands, Text.NamesHl operand

instance (i : Instruction) : Decidable i.NamesHl := inferInstanceAs (Decidable (∃ _ ∈ _, _))

/-- Two readers that are the same, unless the first ends in an instruction that names HL. -/
def Reader.SameUnlessHl (r r' : Reader Instruction) : Prop :=
  r' = r ∨ r.Ends Instruction.NamesHl

namespace Encoding

open Instruction Reader

section

variable (x : Index)

attribute [local simp] Instruction.NamesHl Instruction.statement

theorem namesHl_hl : Text.NamesHl (Reg16.text .hl) := by decide

theorem namesHl_memory_hl : Text.NamesHl (Address.text (.pair .hl)) := by decide

theorem substitute_or_namesHl (name : Reg8) :
    (Pointer.index x).substitute name = name ∨ Text.NamesHl name.text := by
  cases x <;> cases name <;> first | exact .inl rfl | exact .inr (by decide)

theorem pair_or_namesHl (code : Fin 4) :
    (Pointer.index x).pair code = Pointer.hl.pair code ∨
      Text.NamesHl (Pointer.hl.pair code).text := by
  fin_cases code <;> first | exact .inl rfl | exact .inr namesHl_hl

theorem place_sameUnlessHl (code : Fin 8) {next : Place → Reader Instruction}
    (hnext : ∀ place : Place, Text.NamesHl place.text → (next place).Ends Instruction.NamesHl) :
    (Pointer.hl.place code next).SameUnlessHl ((Pointer.index x).place code next) := by
  unfold Pointer.place
  split
  · next name _ =>
      rcases substitute_or_namesHl x name with hsame | hhl
      · left
        rw [hsame]
        rfl
      · exact .inr (hnext (.register name) hhl)
  · exact .inr (hnext (.memory (.pair .hl)) namesHl_memory_hl)

theorem mainRow0_sameUnlessHl (y z : Fin 8) :
    (mainRow0 .hl y z).SameUnlessHl (mainRow0 (.index x) y z) := by
  match z with
  | 0 => exact .inl rfl
  | 1 =>
      cases hodd : odd y with
      | true => exact .inr (by simp [mainRow0, hodd, Pointer.register, namesHl_hl])
      | false =>
          rcases pair_or_namesHl x (half y) with hsame | hhl
          · exact .inl (by simp [mainRow0, hodd, hsame])
          · exact .inr (by simp [mainRow0, hodd, hhl])
  | 2 =>
      fin_cases y <;>
        first | exact .inl rfl | exact .inr (by simp [mainRow0, Pointer.register, namesHl_hl])
  | 3 =>
      rcases pair_or_namesHl x (half y) with hsame | hhl
      · exact .inl (by simp [mainRow0, hsame])
      · exact .inr (by cases hodd : odd y <;> simp [mainRow0, hodd, hhl])
  | 4 =>
      simp only [mainRow0]
      exact place_sameUnlessHl x y fun target htarget => by simpa using htarget
  | 5 =>
      simp only [mainRow0]
      exact place_sameUnlessHl x y fun target htarget => by simpa using htarget
  | 6 =>
      simp only [mainRow0]
      exact place_sameUnlessHl x y fun target htarget => by simp [htarget]
  | 7 => exact .inl rfl

theorem mainRow1_sameUnlessHl (y z : Fin 8) :
    (mainRow1 .hl y z).SameUnlessHl (mainRow1 (.index x) y z) := by
  unfold mainRow1
  split
  · exact .inl rfl
  · exact .inr (by simp [Pointer.address, Place.text, namesHl_memory_hl])
  · exact .inr (by simp [Pointer.address, Source.text, Place.text, namesHl_memory_hl])
  · next target source _ _ =>
      rcases substitute_or_namesHl x target with htarget | hhl
      · rcases substitute_or_namesHl x source with hsource | hhl
        · left
          rw [htarget, hsource]
          rfl
        · exact .inr (by simp [Pointer.substitute, Source.text, Place.text, hhl])
      · exact .inr (by simp [Pointer.substitute, Place.text, hhl])

theorem mainRow2_sameUnlessHl (y z : Fin 8) :
    (mainRow2 .hl y z).SameUnlessHl (mainRow2 (.index x) y z) := by
  apply place_sameUnlessHl
  intro source hsource
  cases haccumulator : (Operation.ofCode y).namesAccumulator <;>
    simp [haccumulator, Source.text, hsource]

/-- The fourth row has two entries that use HL and are not affected by a prefix. -/
theorem mainRow3_sameUnlessHl (y z : Fin 8) :
    (mainRow3 .hl y z).SameUnlessHl (mainRow3 (.index x) y z) := by
  match z with
  | 0 => exact .inl rfl
  | 1 =>
      -- `POP HL`, `JP (HL)` and `LD SP,HL` name HL, each in another place
      fin_cases y <;>
        first
        | exact .inl rfl
        | exact .inr ⟨_, .head _, namesHl_hl⟩
        | exact .inr ⟨_, .head _, namesHl_memory_hl⟩
        | exact .inr ⟨_, .tail _ (.head _), namesHl_hl⟩
  | 2 => exact .inl rfl
  | 3 =>
      fin_cases y <;>
        first | exact .inl rfl | exact .inr (by simp [mainRow3, Pointer.register, namesHl_hl])
  | 4 => exact .inl rfl
  | 5 => fin_cases y <;> first | exact .inl rfl | exact .inr ⟨_, .head _, namesHl_hl⟩
  | 6 => exact .inl rfl
  | 7 => exact .inl rfl

theorem mainTable_sameUnlessHl (op : Byte) :
    (mainTable .hl op).SameUnlessHl (mainTable (.index x) op) := by
  unfold mainTable
  match first op with
  | 0 => exact mainRow0_sameUnlessHl x _ _
  | 1 => exact mainRow1_sameUnlessHl x _ _
  | 2 => exact mainRow2_sameUnlessHl x _ _
  | 3 => exact mainRow3_sameUnlessHl x _ _

end

/-! ### Instructions that are not tied to HL -/

section

variable {x : Fin 4} {y z : Fin 8} {i : Instruction} {a : Address} {place : Place} {n : Nat}

/-- Without a prefix no byte is at a distance from an index register. -/
theorem Cell.isIndexed_eq_false (h : Cell .hl a n) : a.isIndexed = false := by
  cases h with
  | pair _ => rfl
  | indexed h _ => contradiction

theorem FixedCell.isIndexed_eq_false (h : FixedCell a n) : a.isIndexed = false := by
  cases h <;> rfl

theorem Operand.isIndexed_eq_false (h : Operand .hl place n) : place.isIndexed = false := by
  cases h with
  | register _ => rfl
  | memory ha => exact ha.isIndexed_eq_false

theorem MainEntry.untied (h : MainEntry .hl x y z i n) (hexx : ¬(x = 3 ∧ y = 3 ∧ z = 1))
    (hexDeHl : ¬(x = 3 ∧ y = 5 ∧ z = 3)) : i.tied = false := by
  cases h with
  | exx h => exact absurd h hexx
  | exDeHl h => exact absurd h hexDeHl
  | load _ ha | store _ ha | loadA ha | storeA ha =>
      simp [Instruction.tied, Source.isIndexed, Place.isIndexed, ha.isIndexed_eq_false]
  | loadImmediate h _ | inc h | dec h | operate _ h =>
      simp [Instruction.tied, Source.isIndexed, h.isIndexed_eq_false]
  | _ => rfl

/-- The digits of the two exchanges that a prefix does not affect. -/
theorem eq_exchange_iff (op : Byte) :
    (op = 0xD9 ↔ first op = 3 ∧ second op = 3 ∧ third op = 1) ∧
      (op = 0xEB ↔ first op = 3 ∧ second op = 5 ∧ third op = 3) := by
  revert op
  decide

/-- Apart from the two exchanges, an opcode of the main table works on HL only if it names it. -/
theorem mainTable_untied {op : Byte} (hexx : op ≠ 0xD9) (hexDeHl : op ≠ 0xEB) :
    (mainTable .hl op).Ends fun i => i.tied = false := by
  rw [ne_eq, (eq_exchange_iff op).1] at hexx
  rw [ne_eq, (eq_exchange_iff op).2] at hexDeHl
  exact (entries_mainTable .hl op).ends fun _ _ h => h.untied hexx hexDeHl

end

/-! ### What follows a prefix -/

/-- Nothing that follows a prefix is undefined. -/
theorem indexed_defined (x : Index) :
    (indexed x).Ends fun i => ∀ byte, i ≠ .undefined byte := by
  have hopcode (op : Byte) : (afterIndex x op).Ends fun i => ∀ byte, i ≠ .undefined byte := by
    by_cases hei : op = 0xFB
    · rw [hei]
      exact fun _ => Instruction.noConfusion
    · exact (fits_afterIndex x hei).ends fun i hi => hi.defined
  exact ends_indexed (fun _ => Instruction.noConfusion) hopcode

/-- An opcode that selects no other table. -/
theorem afterFirst_of_main {op : Byte} (hop : op ∉ [0xCB, 0xDD, 0xED, 0xFD]) :
    afterFirst op = mainTable .hl op := by
  simp only [List.mem_cons, List.not_mem_nil, or_false, not_or] at hop
  obtain ⟨hcb, hdd, hed, hfd⟩ := hop
  rw [afterFirst, if_neg hcb, if_neg hed, if_neg hdd, if_neg hfd]

theorem overridesPrefix_of_main {op : Byte} (hop : op ∉ [0xCB, 0xDD, 0xED, 0xFD]) :
    overridesPrefix op = false := by
  revert op
  decide

theorem afterIndex_of_main (x : Index) {op : Byte} (hop : op ∉ [0xCB, 0xDD, 0xED, 0xFD]) :
    afterIndex x op = mainTable (.index x) op := by
  have hcb : op ≠ 0xCB := fun h => hop (h ▸ .head _)
  rw [afterIndex, if_neg hcb]

end Encoding

namespace Machine

open Encoding

variable (m : Machine)

/-- What comes of the instruction behind a prefix. -/
structure Outcome where
  result : Except Error Unit
  /-- The bytes taken behind the prefix. -/
  bytes : List Byte
  machine : Machine

/-- Carries out the instruction behind a prefix that has been taken. -/
def executeIndexed (x : Index) : Outcome :=
  let fetched := m.fetch (indexed x)
  match fetched.value with
  | .undefined opcode =>
      { result := .error (.undefinedOpcode opcode (fetched.machine.registers.pc - 2))
        bytes := fetched.bytes
        machine := fetched.machine }
  | instruction =>
      { result := .ok ()
        bytes := fetched.bytes
        machine := fetched.machine.execute instruction }

/-- Swaps the two index registers. -/
def exchangeIndices : Machine := m.setRegisters m.registers.exchangeIndices

/-- Goes on behind the byte at the program counter, which counts as a refreshed row. -/
def skipByte : Machine := m.setRegisters { m.registers.refresh with pc := m.registers.pc + 1 }

/-- Ends the delay after `EI`, as happens before each instruction. -/
def endDelay : Machine := { m with enableDelay := false }

/-! ### The instruction behind a prefix -/

theorem executeIndexed_eq (x : Index) :
    m.executeIndexed x =
      ⟨.ok (), (m.fetch (indexed x)).bytes,
        (m.fetch (indexed x)).machine.execute (m.fetch (indexed x)).value⟩ := by
  have hdefined := (indexed_defined x).value_fetch m
  unfold executeIndexed
  dsimp only
  split
  · next opcode h => exact absurd h (hdefined opcode)
  · rfl

/-- Reading does not depend on the delay after `EI`. -/
theorem fetch_endDelay {α : Type} (r : Reader α) :
    m.endDelay.fetch r =
      ⟨(m.fetch r).value, (m.fetch r).bytes, (m.fetch r).machine.endDelay⟩ := by
  induction r generalizing m with
  | done value => rfl
  | opcode next ih =>
      have hrest := ih m.refresh.fetchByte.1 m.refresh.fetchByte.2
      exact congrArg (fun f => Fetched.mk f.value (m.fetchByte.1 :: f.bytes) f.machine) hrest
  | operand next ih =>
      have hrest := ih m.fetchByte.1 m.fetchByte.2
      exact congrArg (fun f => Fetched.mk f.value (m.fetchByte.1 :: f.bytes) f.machine) hrest
  | peek next ih => exact ih (some m.fetchByte.1) (m.read m.registers.pc).2

variable {m}

/-- A step that finds a prefix carries out the instruction behind it. -/
theorem advance_eq_executeIndexed {x : Index} (hindex : index? (m.codeByte 0) = some x) :
    m.advance =
      let outcome := m.afterFirst.endDelay.executeIndexed x
      let after := { outcome.machine with count := outcome.machine.count + 1 }
      (outcome.result.map fun _ =>
        after.report m.registers.pc (m.codeByte 0 :: outcome.bytes), after) := by
  have hreader : Encoding.afterFirst (m.codeByte 0) = indexed x := by
    rw [afterFirst_of_index hindex]
    rfl
  have hfetch := fetch_reader m
  rw [hreader] at hfetch
  rw [advance_of_not_atHole (not_atHole_of_index hindex), executed, ready, instruction, hfetch,
    executeIndexed_eq, fetch_endDelay]
  rfl

/-- The two prefixes differ by an exchange of the index registers: what the one does behind it
the other does with the registers exchanged before and after. -/
theorem executeIndexed_exchangeIndices (m : Machine) :
    m.exchangeIndices.executeIndexed .iy =
        { m.executeIndexed .ix with machine := (m.executeIndexed .ix).machine.exchangeIndices } ∧
      (m.executeIndexed .ix).result = .ok () := by
  let π : Equiv.Perm Pointer := Equiv.swap (.index .ix) (.index .iy)
  have hhl : π .hl = .hl := by decide
  have hstart : Mirrors π m.bus.history m.bus.history m m.exchangeIndices :=
    .of_registers m m.registers.rearrange_swap_indices.symm
  -- both take the same bytes, which mean instructions that differ by their names
  obtain ⟨hvalue, hbytes, hfetched⟩ := hstart.fetch (·.rename π) (indexed .ix)
  rw [indexed_rename hhl (Equiv.swap_apply_left _ _)] at hvalue hbytes hfetched
  have hi : π .hl = .hl ∨ (m.fetch (indexed .ix)).value.tied = false := .inl hhl
  have hexecuted := (hfetched.execute hi).eq_setRegisters
  rw [executeIndexed_eq, executeIndexed_eq, hvalue, hbytes, hexecuted,
    Registers.rearrange_swap_indices]
  exact ⟨rfl, rfl⟩

/-! ### With a prefix and without it -/

section

variable {π : Equiv.Perm Pointer} {x : Index}

/-- Looking behind a prefix is like skipping it. -/
theorem mirrors_afterLook (m : Machine) (π : Equiv.Perm Pointer) :
    Mirrors π m.bus.history m.afterLook.bus.history
      (m.setRegisters (m.registers.rearrange π.symm)).skipByte m.afterLook where
  registers := by
    have hskip := (m.registers.rearrange π.symm).update_rearrange π
      (fun s => { s.refresh with pc := s.pc + 1 }) fun _ _ => rfl
    rw [Registers.rearrange_symm_rearrange] at hskip
    exact hskip
  cpu := rfl
  bus := rfl
  history := ⟨[], rfl, rfl⟩

theorem history_afterLook (m : Machine) :
    m.afterLook.bus.history =
      [.read m.registers.pc (m.codeByte 0), .read (m.registers.pc + 1) (m.codeByte 1)].reverse ++
        m.bus.history := by
  rw [codeByte_zero]
  rfl

/-- Machines that mirror each other once they have read an instruction still do when they have
carried it out. -/
theorem Mirrors.executed {start start' : List Access} {m m' : Machine}
    (h : Mirrors π start start' (m.fetch Instruction.reader).machine
      (m'.fetch Instruction.reader).machine)
    (hinstruction : m'.instruction = m.instruction.rename π)
    (htied : π .hl = .hl ∨ m.instruction.tied = false) :
    Mirrors π start start' m.executed m'.executed := by
  have hready := h.updateCpu (fun c => { c with enableDelay := false }) fun _ _ => rfl
  have hexecuted := hready.execute htied
  rw [← hinstruction] at hexecuted
  exact hexecuted.updateCpu (fun c => { c with count := c.count + 1 }) fun _ _ => rfl

/-- An opcode without a prefix. -/
theorem fetch_of_main {m : Machine} {op : Byte} (hcode : m.codeByte 0 = op)
    (hop : op ∉ [0xCB, 0xDD, 0xED, 0xFD]) :
    m.fetch Instruction.reader =
      ⟨(m.afterFirst.fetch (mainTable .hl op)).value,
        op :: (m.afterFirst.fetch (mainTable .hl op)).bytes,
        (m.afterFirst.fetch (mainTable .hl op)).machine⟩ := by
  rw [fetch_reader, hcode, afterFirst_of_main hop]

/-- Let the table behind a prefix be the main table with its entries renamed.  Then the machine
that has carried out the instruction with the prefix mirrors one that has carried it out
without the prefix. -/
theorem mirrors_executed (hindex : index? (m.codeByte 0) = some x)
    (hop : m.codeByte 1 ∉ [0xCB, 0xDD, 0xED, 0xFD])
    (htable :
      (mainTable .hl (m.codeByte 1)).map (·.rename π) = mainTable (.index x) (m.codeByte 1))
    (htied : π .hl = .hl ∨ (mainTable .hl (m.codeByte 1)).Ends fun i => i.tied = false) :
    Mirrors π m.bus.history m.afterLook.bus.history
      (m.setRegisters (m.registers.rearrange π.symm)).skipByte.executed m.executed := by
  let plain := (m.setRegisters (m.registers.rearrange π.symm)).skipByte
  have hcode : plain.codeByte 0 = m.codeByte 1 := codeByte_zero plain
  have hplain := fetch_of_main hcode hop
  have hprefixed := fetch_indexed hindex (overridesPrefix_of_main hop)
  rw [afterIndex_of_main x hop] at hprefixed
  -- both machines take the same bytes from the opcode on
  obtain ⟨-, hopcode⟩ := (mirrors_afterLook m π).refresh.fetchByte
  obtain ⟨hvalue, -, hfetched⟩ := hopcode.fetch (·.rename π) (mainTable .hl (m.codeByte 1))
  rw [htable] at hvalue hfetched
  apply Mirrors.executed
  · rw [hplain, hprefixed]
    exact hfetched
  · rw [instruction, instruction, hplain, hprefixed]
    exact hvalue
  · rw [instruction, hplain]
    exact htied.imp_right fun h => h.value_fetch plain.afterFirst

/-- The step with the prefix does what the step without it does, with the registers permuted
before it and after it.  It reads two bytes more. -/
theorem step_behind_index (hrunning : m.registers.halted = false)
    (hint : m.interruptPending = false) (hnmi : m.nmiPending = false)
    (hindex : index? (m.codeByte 0) = some x) (hop : m.codeByte 1 ∉ [0xCB, 0xDD, 0xED, 0xFD])
    (htable :
      (mainTable .hl (m.codeByte 1)).map (·.rename π) = mainTable (.index x) (m.codeByte 1))
    (htied : π .hl = .hl ∨ (mainTable .hl (m.codeByte 1)).Ends fun i => i.tied = false)
    {plain : Machine} (hplain : plain = (m.setRegisters (m.registers.rearrange π.symm)).skipByte) :
    m.Succeeds ∧ plain.Succeeds ∧
      m.step.2 =
        { plain.step.2 with
          registers := plain.step.2.registers.rearrange π
          bus.history := m.step.2.bus.history } ∧
      m.step.2.bus.since m.bus =
        [.read m.registers.pc (m.codeByte 0), .read (m.registers.pc + 1) (m.codeByte 1)] ++
          plain.step.2.bus.since m.bus := by
  have hcode : plain.codeByte 0 = m.codeByte 1 := by
    rw [hplain]
    exact codeByte_zero _
  have hdue := due_eq_none hint hnmi
  have hdue' : plain.due = none := by
    rw [hplain]
    exact hdue
  have hrunning' : plain.registers.halted = false := by
    rw [hplain]
    exact hrunning
  have hhole' : ¬plain.AtHole := by
    rintro ⟨hed, -⟩
    rw [hcode] at hed
    simp [hed] at hop
  have hstep := step_of_due_none hdue hrunning (not_atHole_of_index hindex)
  have hstep' := step_of_due_none hdue' hrunning' hhole'
  have hmirrors := mirrors_executed hindex hop htable htied
  rw [← hplain] at hmirrors
  rw [history_afterLook] at hmirrors
  refine ⟨⟨_, congrArg Prod.fst hstep⟩, ⟨_, congrArg Prod.fst hstep'⟩, ?_, ?_⟩
  · rw [hstep, hstep']
    exact hmirrors.eq_with_history
  · rw [hstep, hstep']
    exact hmirrors.since_eq

end

/-- A prefix has no effect before an opcode that names neither HL nor its halves nor the byte at
HL, nor before the two exchanges that use HL. -/
theorem index_byte_transparent (m : Machine) (x : Index) (hrunning : m.registers.halted = false)
    (hint : m.interruptPending = false) (hnmi : m.nmiPending = false)
    (hindex : index? (m.codeByte 0) = some x) (hop : m.codeByte 1 ∉ [0xCB, 0xDD, 0xED, 0xFD])
    (hnames : ¬m.skipByte.instruction.NamesHl ∨ m.codeByte 1 ∈ [0xEB, 0xD9]) :
    m.Succeeds ∧ m.skipByte.Succeeds ∧
      m.step.2 = { m.skipByte.step.2 with bus.history := m.step.2.bus.history } ∧
      m.step.2.bus.since m.bus =
        [.read m.registers.pc (m.codeByte 0), .read (m.registers.pc + 1) (m.codeByte 1)] ++
          m.skipByte.step.2.bus.since m.bus := by
  have hcode : m.skipByte.codeByte 0 = m.codeByte 1 := codeByte_zero _
  have hsame : mainTable (.index x) (m.codeByte 1) = mainTable .hl (m.codeByte 1) := by
    rcases hnames with hnames | hexchange
    · -- if the entries differed the instruction would name HL
      rcases mainTable_sameUnlessHl x (m.codeByte 1) with hsame | hhl
      · exact hsame
      · rw [instruction, fetch_of_main hcode hop] at hnames
        exact absurd (hhl.value_fetch _) hnames
    · simp only [List.mem_cons, List.not_mem_nil, or_false] at hexchange
      rcases hexchange with h | h <;> rw [h] <;> rfl
  have htable : (mainTable .hl (m.codeByte 1)).map (·.rename (Equiv.refl Pointer)) =
      mainTable (.index x) (m.codeByte 1) := by
    rw [hsame]
    exact mainTable_rename .hl (.inl rfl)
  have hplain : m.skipByte =
      (m.setRegisters (m.registers.rearrange (Equiv.refl Pointer).symm)).skipByte := by
    rw [Equiv.refl_symm, Registers.rearrange_refl]
    rfl
  have hstep := step_behind_index hrunning hint hnmi hindex hop htable (.inl rfl) hplain
  rwa [Registers.rearrange_refl] at hstep

/-- A call behind a prefix, which keeps the address behind it on the stack. -/
def prefixedCall : Machine where
  registers := { pc := 0x8000 }
  bus.ram := Store.load (.fill 0 16) 0x8000 [0xDD, 0xCD, 0x00, 0x10]

theorem index_byte_transparent_call :
    prefixedCall.step.2.toCpu = prefixedCall.skipByte.step.2.toCpu ∧
      prefixedCall.step.2.registers.pc = 0x1000 := by
  obtain ⟨-, -, hstep, -⟩ := index_byte_transparent prefixedCall .ix rfl rfl rfl (by decide)
    (by decide) (.inl (by decide))
  have hcpu := congrArg Machine.toCpu hstep
  exact ⟨hcpu, by decide⟩

/-- A prefix before an opcode without an operand in memory at HL puts the index register in the
place of HL: the step does what it does without the prefix if HL and the index register are
exchanged before it and after it. -/
theorem index_byte_exchanges_hl (m : Machine) (x : Index) (hrunning : m.registers.halted = false)
    (hint : m.interruptPending = false) (hnmi : m.nmiPending = false)
    (hindex : index? (m.codeByte 0) = some x)
    (hop : m.codeByte 1 ∉ [0xCB, 0xDD, 0xED, 0xFD, 0xD9, 0xEB])
    (hmemory : pointsToMemory (m.codeByte 1) = false) :
    m.Succeeds ∧ (m.setRegisters (m.registers.exchangeHl x)).skipByte.Succeeds ∧
      m.step.2 =
        { (m.setRegisters (m.registers.exchangeHl x)).skipByte.step.2 with
          registers :=
            (m.setRegisters (m.registers.exchangeHl x)).skipByte.step.2.registers.exchangeHl x
          bus.history := m.step.2.bus.history } ∧
      m.step.2.bus.since m.bus =
        [.read m.registers.pc (m.codeByte 0), .read (m.registers.pc + 1) (m.codeByte 1)] ++
          (m.setRegisters (m.registers.exchangeHl x)).skipByte.step.2.bus.since m.bus := by
  have hop' : m.codeByte 1 ∉ [0xCB, 0xDD, 0xED, 0xFD] := fun h => hop (List.mem_append_left _ h)
  have hexx : m.codeByte 1 ≠ 0xD9 := by
    intro h
    simp [h] at hop
  have hexDeHl : m.codeByte 1 ≠ 0xEB := by
    intro h
    simp [h] at hop
  have htable : (mainTable .hl (m.codeByte 1)).map (·.rename (Equiv.swap .hl (.index x))) =
      mainTable (.index x) (m.codeByte 1) := by
    rw [mainTable_rename .hl (.inr hmemory), Equiv.swap_apply_left]
  have hplain : (m.setRegisters (m.registers.exchangeHl x)).skipByte =
      (m.setRegisters (m.registers.rearrange (Equiv.swap .hl (.index x)).symm)).skipByte := by
    rw [Equiv.symm_swap, Registers.rearrange_swap_hl]
  have hstep := step_behind_index hrunning hint hnmi hindex hop' htable
    (.inr (mainTable_untied hexx hexDeHl)) hplain
  rwa [Registers.rearrange_swap_hl] at hstep

/-- `EX (SP),IY` with the top of the stack across the end of memory. -/
def prefixedExchange : Machine where
  registers := { pc := 0x8000, sp := 0xFFFF, h := 0x12, l := 0x34, iy := 0x5678 }
  bus.ram := (Store.load (.fill 0 16) 0x8000 [0xFD, 0xE3]).load 0xFFFF [0xAB, 0xCD]

theorem index_byte_exchanges_hl_at_stack :
    prefixedExchange.step.2.registers =
        (prefixedExchange.setRegisters
          (prefixedExchange.registers.exchangeHl .iy)).skipByte.step.2.registers.exchangeHl .iy ∧
      prefixedExchange.step.2.registers.iy = 0xCDAB := by
  obtain ⟨-, -, hstep, -⟩ := index_byte_exchanges_hl prefixedExchange .iy rfl rfl rfl (by decide)
    (by decide) (by decide)
  have hregisters := congrArg (fun m => m.registers) hstep
  exact ⟨hregisters, by decide⟩

end Machine
end Z80Machine
