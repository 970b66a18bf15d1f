import Z80Machine.Proofs.SameLine
import Z80Machine.Proofs.Status
import Z80Machine.Proofs.Targets

/-!
# Instructions that leave the flags alone

Most instructions that move data or control are not made to change flags
(`Instruction.isFlagNeutral`), and a step that carries out one of them leaves all of them as
they are.  Others change flags but keep the carry (`Instruction.isCarryNeutral`), so that a
number of many bytes can be worked on in a loop.  Interrupts leave the flags to their handlers.
-/

namespace Z80Machine

/-- Whether an instruction changes flags without the carry. -/
def Instruction.isCarryNeutral : Instruction → Bool
  | .inc _ | .dec _ | .bit .. | .inC _ | .loadControl _ | .rld | .rrd | .block .load ..
  | .block .compare .. => true
  | _ => false

namespace Machine

variable (m : Machine)

theorem flags_repeatIf (again : Bool) : (m.repeatIf again).registers.f = m.registers.f := by
  cases again <;> rfl

theorem carry_execute {p : Pointer} {i : Instruction} (hwithin : i.within p = true)
    (hi : i.isCarryNeutral = true) :
    (m.execute i).registers.f.carry = m.registers.f.carry := by
  cases i with
  | inc target =>
      show (m.take target).2.registers.f.carry = _
      rw [registers_take]
  | dec target =>
      show (m.take target).2.registers.f.carry = _
      rw [registers_take]
  | bit n target =>
      show (m.take target).2.registers.f.carry = _
      rw [registers_take]
  | inC target =>
      cases target with
      | none => rfl
      | some name =>
          -- the register that receives the byte is not F
          have hname : Part.flags ≠ name.part := by
            have hmain : name.part = .main := by simpa [Instruction.within] using hwithin
            rw [hmain]
            exact Part.noConfusion
          have hflags := m.registers.part_write8 name (m.input m.registers.bc).1 hname
          exact congrArg (fun s => s.f.carry) hflags
  | loadControl source => rfl
  | rld | rrd => rfl
  | block op dir repeats =>
      cases op with
      | load | compare => exact (congrArg Flags.carry (flags_repeatIf _ _)).trans rfl
      | input | output => contradiction
  | _ => contradiction

/-! ### Steps -/

variable {m}

theorem flags_step (hdue : m.due = none) (hneutral : m.instruction.isFlagNeutral = true) :
    m.step.2.registers.f = m.registers.f := by
  by_contra hne
  obtain ⟨i, ⟨-, hi⟩, -, hwrites⟩ := exists_writer_of_ne hdue (q := .flags) (·.f) (fun s => rfl)
    Part.noConfusion Part.noConfusion hne
  rw [serve_of_none hdue] at hi
  rw [Part.MayWrite, ← hi, hneutral] at hwrites
  contradiction

theorem carry_executed (hi : m.instruction.isCarryNeutral = true) :
    m.executed.registers.f.carry = m.registers.f.carry := by
  refine (carry_execute m.ready (within_instruction m) hi).trans ?_
  rw [registers_ready]

/-! ### Interrupts -/

theorem EntersHandler.flags {m' : Machine} {address : Word} {iff2 : Bool}
    (h : m.EntersHandler m' address iff2) : m'.registers.f = m.registers.f := by
  rw [h.registers]

theorem flags_interrupt (m : Machine) : m.interrupt.2.registers.f = m.registers.f := by
  cases hiff1 : m.registers.iff1 with
  | true => exact (entersHandler_interrupt hiff1).flags
  | false => rw [interrupt_of_disabled hiff1]

theorem flags_serve (m : Machine) : m.serve.registers.f = m.registers.f := by
  rcases serve_cases m with ⟨address, iff2, hentry, -⟩ | hsame
  · exact hentry.flags
  · rw [hsame]

/-- A step that succeeds, with no request pending and the processor not halted, leaves the flags
as they were if its instruction is none of those made to change them, and the carry as it was if
its instruction keeps the carry.  Interrupts leave the flags alone, those that a step serves as
well as those called for. -/
theorem neutral_instructions_keep_flags (m : Machine) :
    (m.registers.halted = false → m.interruptPending = false → m.nmiPending = false →
      m.Succeeds →
      (m.instruction.isFlagNeutral = true → m.step.2.registers.f = m.registers.f) ∧
      (m.instruction.isCarryNeutral = true →
        m.step.2.registers.f.carry = m.registers.f.carry)) ∧
    m.interrupt.2.registers.f = m.registers.f ∧ m.nmi.registers.f = m.registers.f ∧
    m.serve.registers.f = m.registers.f := by
  refine ⟨?_, flags_interrupt m, (entersHandler_nmi m).flags, flags_serve m⟩
  intro hrunning hint hnmi hok
  have hdue := due_eq_none hint hnmi
  constructor
  · exact flags_step hdue
  · intro hi
    rw [step_of_due_none hdue hrunning (not_atHole_of_succeeds hdue hrunning hok)]
    exact carry_executed hi

/-- Resets a bit of the byte at IX+5 with a copy in B, by an encoding across the end of memory. -/
def resetBitExample : Machine where
  registers := { pc := 0xFFFE, f := .ofByte 0xA5, ix := 0x9000 }
  bus.ram := Store.load (.fill 0xFF 16) 0xFFFE [0xDD, 0xCB, 0x05, 0x80]

/-- Looks for a byte in memory with the carry set. -/
def searchExample : Machine where
  registers := { pc := 0x8000, a := 0x12, f := { carry := true }, b := 0x01, h := 0x90 }
  bus.ram := Store.load (.fill 0 16) 0x8000 [0xED, 0xB1]

theorem flags_after_reset_bit_and_search :
    resetBitExample.instruction = .res 0 (.memory (.indexed .ix 0x05)) (some .b) ∧
      resetBitExample.step.2.registers.f = .ofByte 0xA5 ∧
      searchExample.instruction = .block .compare .up true ∧
      searchExample.step.2.registers.f ≠ searchExample.registers.f ∧
      searchExample.step.2.registers.f.carry = true := by
  have hreset : resetBitExample.instruction = .res 0 (.memory (.indexed .ix 0x05)) (some .b) := by
    decide
  have hsearch : searchExample.instruction = .block .compare .up true := by decide
  obtain ⟨hflags, -⟩ := (neutral_instructions_keep_flags resetBitExample).1 rfl rfl rfl ⟨_, rfl⟩
  obtain ⟨-, hcarry⟩ := (neutral_instructions_keep_flags searchExample).1 rfl rfl rfl ⟨_, rfl⟩
  rw [hreset] at hflags
  rw [hsearch] at hcarry
  exact ⟨hreset, hflags rfl, hsearch, by decide, hcarry rfl⟩

end Machine
end Z80Machine
