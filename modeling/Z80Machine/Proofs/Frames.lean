import Z80Machine.Machine.Execution
import Z80Machine.Proofs.Encoding

/-!
# What an instruction leaves alone

Executing an instruction changes registers and memory and adds to the history of the
bus.  It never touches the requests, the count, the configuration or the devices, and
only `EI` delays the next interrupt: this is `Extends`, which every operation keeps
(`extends_execute`).  The program counter moves only in an instruction that redirects
it (`pc_execute`).
-/

namespace Z80Machine

/-- Whether an instruction may go on elsewhere than behind itself. -/
def Instruction.redirects : Instruction → Bool
  | .jp .. | .jpRegister _ | .jr .. | .djnz _ | .call .. | .ret _ | .rst _ | .reti | .retn
  | .halt => true
  | .block _ _ repeats => repeats
  | _ => false

namespace Machine

/-- The addresses of the next word to be pushed. -/
def stackAddresses (m : Machine) : List Word := [m.registers.sp - 1, m.registers.sp - 2]

/-- The second machine comes from the first by changes of registers and memory, and by
accesses added to the history. -/
structure Extends (m m' : Machine) : Prop where
  cpu : m'.toCpu = { m.toCpu with registers := m'.registers }
  history : m.bus.history <:+ m'.bus.history
  devices : m'.bus.devices = m.bus.devices
  dataBus : m'.bus.dataBus = m.bus.dataBus

theorem Extends.refl (m : Machine) : m.Extends m := ⟨rfl, List.suffix_refl _, rfl, rfl⟩

theorem Extends.trans {m m' m'' : Machine} (h : m.Extends m') (h' : m'.Extends m'') :
    m.Extends m'' where
  cpu := by rw [h'.cpu, h.cpu]
  history := h.history.trans h'.history
  devices := h'.devices.trans h.devices
  dataBus := h'.dataBus.trans h.dataBus

/-- A change of registers. -/
theorem Extends.registers (m : Machine) (s : Registers) : m.Extends { m with registers := s } :=
  ⟨rfl, List.suffix_refl _, rfl, rfl⟩

/-- A change of registers after other changes. -/
theorem Extends.then_registers {m m' : Machine} (h : m.Extends m') (s : Registers) :
    m.Extends { m' with registers := s } :=
  h.trans (.registers m' s)

section Operations

variable (m : Machine)

/-! ### Memory, devices and the stack -/

theorem extends_read (address : Word) : m.Extends (m.read address).2 :=
  ⟨rfl, List.suffix_cons _ _, rfl, rfl⟩

theorem extends_write (address : Word) (value : Byte) : m.Extends (m.write address value) :=
  ⟨rfl, List.suffix_cons _ _, rfl, rfl⟩

theorem extends_input (device : Word) : m.Extends (m.input device).2 :=
  ⟨rfl, List.suffix_cons _ _, rfl, rfl⟩

theorem extends_output (device : Word) (value : Byte) : m.Extends (m.output device value) :=
  ⟨rfl, List.suffix_cons _ _, rfl, rfl⟩

theorem extends_readWord (address : Word) : m.Extends (m.readWord address).2 :=
  (extends_read m address).trans (extends_read _ _)

theorem extends_writeWord (address value : Word) : m.Extends (m.writeWord address value) :=
  (extends_write m address _).trans (extends_write _ _ _)

theorem extends_push (value : Word) : m.Extends (m.push value) :=
  ((Extends.registers m _).trans (extends_write _ _ _)).trans
    ((Extends.registers _ _).trans (extends_write _ _ _))

theorem extends_pop : m.Extends m.pop.2 :=
  ((extends_read m _).then_registers _).trans ((extends_read _ _).then_registers _)

/-! ### Operands -/

theorem extends_take (p : Place) : m.Extends (m.take p).2 := by
  cases p with
  | register name => exact .refl m
  | memory a => exact extends_read m _

theorem extends_put (p : Place) (value : Byte) : m.Extends (m.put p value) := by
  cases p with
  | register name => exact .registers m _
  | memory a => exact extends_write m _ value

theorem extends_takeSource (s : Source) : m.Extends (m.takeSource s).2 := by
  cases s with
  | place p => exact extends_take m p
  | immediate value => exact .refl m

theorem extends_takeWord (s : WordSource) : m.Extends (m.takeWord s).2 := by
  cases s with
  | register name => exact .refl m
  | immediate value => exact .refl m
  | memory address => exact extends_readWord m address

theorem extends_putBoth (p : Place) (copy : Option Reg8) (value : Byte) :
    m.Extends (m.putBoth p copy value) := by
  cases copy with
  | none => exact extends_put m p value
  | some name => exact (extends_put m p value).then_registers _

theorem extends_rotateDigits (rotate : Byte → Byte → Flags → Arithmetic.DigitRotation) :
    m.Extends (m.rotateDigits rotate) :=
  ((extends_read m _).trans (extends_write _ _ _)).then_registers _

/-! ### Transfer of control -/

theorem extends_jumpIf (cond : Option Condition) (address : Word) :
    m.Extends (m.jumpIf cond address) := by
  unfold jumpIf
  split
  · exact .registers m _
  · exact .refl m

theorem extends_jumpRelativeIf (cond : Option Condition) (d : Byte) :
    m.Extends (m.jumpRelativeIf cond d) := by
  unfold jumpRelativeIf
  split
  · exact .registers m _
  · exact .refl m

theorem extends_call (address : Word) : m.Extends (m.call address) :=
  (extends_push m _).then_registers _

theorem extends_callIf (cond : Option Condition) (address : Word) :
    m.Extends (m.callIf cond address) := by
  unfold callIf
  split
  · exact extends_call m address
  · exact .refl m

theorem extends_ret : m.Extends m.ret := (extends_pop m).then_registers _

theorem extends_retIf (cond : Option Condition) : m.Extends (m.retIf cond) := by
  unfold retIf
  split
  · exact extends_ret m
  · exact .refl m

theorem extends_countDown (d : Byte) : m.Extends (m.countDown d).2 := by
  unfold countDown
  dsimp only
  split
  · exact .registers m _
  · exact .registers m _

/-! ### Blocks -/

theorem extends_repeatIf (again : Bool) : m.Extends (m.repeatIf again) := by
  cases again with
  | true => exact .registers m _
  | false => exact .refl m

theorem extends_block (op : BlockOperation) (dir : Direction) (repeats : Bool) :
    m.Extends (m.block op dir repeats) := by
  cases op with
  | load =>
      exact (((extends_read m _).trans (extends_write _ _ _)).then_registers _).trans
        (extends_repeatIf _ _)
  | compare => exact ((extends_read m _).then_registers _).trans (extends_repeatIf _ _)
  | input =>
      exact (((extends_input m _).trans (extends_write _ _ _)).then_registers _).trans
        (extends_repeatIf _ _)
  | output =>
      exact ((((extends_read m _).then_registers _).trans
        (extends_output _ _ _)).then_registers _).trans (extends_repeatIf _ _)

end Operations

/-! ### Instructions -/

/-- All instructions but one change registers and memory only. -/
theorem extends_execute (m : Machine) {i : Instruction} (hei : i ≠ .ei) :
    m.Extends (m.execute i) := by
  -- one case for each way in which instructions reach their operands
  cases i with
  | nop | idlePrefix | undefined => exact .refl m
  | ld target source => exact (extends_takeSource m source).trans (extends_put _ target _)
  | ldWord target source => exact (extends_takeWord m source).then_registers _
  | storeWord address source => exact extends_writeWord m address _
  | storeControl target => cases target <;> exact .registers m _
  | loadControl | exAf | exx | exDeHl | adjust | addWord | adcWord | sbcWord | incWord | decWord
  | jpRegister | halt | di | im => exact .registers m _
  | push source => exact extends_push m _
  | pop target => exact (extends_pop m).then_registers _
  | exStack name =>
      exact ((extends_readWord m _).trans (extends_writeWord _ _ _)).then_registers _
  | operate op source => exact (extends_takeSource m source).then_registers _
  | inc target | dec target =>
      exact ((extends_take m target).trans (extends_put _ target _)).then_registers _
  | shift op target copy =>
      exact ((extends_take m target).trans (extends_putBoth _ target copy _)).then_registers _
  | bit n target => exact (extends_take m target).then_registers _
  | res n target copy | set n target copy =>
      exact (extends_take m target).trans (extends_putBoth _ target copy _)
  | rld | rrd => exact extends_rotateDigits m _
  | jp cond address => exact extends_jumpIf m cond address
  | jr cond d => exact extends_jumpRelativeIf m cond d
  | djnz d => exact extends_countDown m d
  | call cond address => exact extends_callIf m cond address
  | ret cond => exact extends_retIf m cond
  | rst vector => exact extends_call m _
  | reti | retn => exact (extends_ret m).then_registers _
  | inA device => exact (extends_input m _).then_registers _
  | outA device => exact extends_output m _ _
  | inC target =>
      cases target with
      | none => exact (extends_input m _).then_registers _
      | some name => exact ((extends_input m _).then_registers _).then_registers _
  | outC source => cases source <;> exact extends_output m _ _
  | block op dir repeats => exact extends_block m op dir repeats
  | ei => exact absurd rfl hei

/-! ### The program counter -/

@[simp] theorem pc_write8 (s : Registers) (name : Reg8) (value : Byte) :
    (s.write8 name value).pc = s.pc := by
  cases name <;> rfl

theorem pc_writePair (s : Registers) {name : Reg16} (value : Word) (hname : name ≠ .pc) :
    (s.writePair name value).pc = s.pc := by
  cases name with
  | pc => exact absurd rfl hname
  | _ => rfl

@[simp] theorem pc_put (m : Machine) (p : Place) (value : Byte) :
    (m.put p value).registers.pc = m.registers.pc := by
  cases p with
  | register name => exact pc_write8 m.registers name value
  | memory a => rfl

@[simp] theorem pc_putBoth (m : Machine) (p : Place) (copy : Option Reg8) (value : Byte) :
    (m.putBoth p copy value).registers.pc = m.registers.pc := by
  cases copy with
  | none => exact pc_put m p value
  | some name => exact (pc_write8 _ name value).trans (pc_put m p value)

@[simp] theorem registers_take (m : Machine) (p : Place) :
    (m.take p).2.registers = m.registers := by
  cases p <;> rfl

@[simp] theorem registers_takeSource (m : Machine) (s : Source) :
    (m.takeSource s).2.registers = m.registers := by
  cases s with
  | place p => exact registers_take m p
  | immediate value => rfl

@[simp] theorem registers_takeWord (m : Machine) (s : WordSource) :
    (m.takeWord s).2.registers = m.registers := by
  cases s <;> rfl

/-- An encoding cannot name the program counter as the target of an instruction. -/
theorem ne_pc_of_isMain {name : Reg16} (h : name.isMain = true) : name ≠ .pc := by
  rintro rfl
  exact Bool.noConfusion h

/-- An instruction that does not redirect goes on behind itself. -/
theorem pc_execute (m : Machine) {i : Instruction} (hi : i.redirects = false)
    (htarget : ∀ name ∈ i.wordTarget?, name.isMain = true) :
    (m.execute i).registers.pc = m.registers.pc := by
  -- an instruction that names a word register writes it last
  have hpair (s : Registers) (name : Reg16) (value : Word) (hname : i.wordTarget? = some name) :
      (s.writePair name value).pc = s.pc :=
    pc_writePair s value (ne_pc_of_isMain (htarget name hname))
  cases i with
  | ld target source => simp [execute]
  | ldWord target source =>
      exact (hpair _ target _ rfl).trans (congrArg Registers.pc (registers_takeWord m source))
  | pop target => exact hpair _ target _ rfl
  | exStack target => exact hpair _ target _ rfl
  | incWord target => exact hpair _ target _ rfl
  | decWord target => exact hpair _ target _ rfl
  | addWord target source => exact hpair _ target _ rfl
  | storeControl target => cases target <;> rfl
  | operate op source =>
      show (m.takeSource source).2.registers.pc = m.registers.pc
      rw [registers_takeSource]
  | inc target => exact (pc_put _ target _).trans (congrArg Registers.pc (registers_take m target))
  | dec target => exact (pc_put _ target _).trans (congrArg Registers.pc (registers_take m target))
  | shift op target copy =>
      exact (pc_putBoth _ target copy _).trans (congrArg Registers.pc (registers_take m target))
  | bit n target =>
      show (m.take target).2.registers.pc = m.registers.pc
      rw [registers_take]
  | res n target copy =>
      exact (pc_putBoth _ target copy _).trans (congrArg Registers.pc (registers_take m target))
  | set n target copy =>
      exact (pc_putBoth _ target copy _).trans (congrArg Registers.pc (registers_take m target))
  | inC target =>
      cases target with
      | none => rfl
      | some name => exact pc_write8 _ name _
  | outC source => cases source <;> rfl
  | block op dir repeats =>
      -- only the repeating forms move the program counter back
      obtain rfl : repeats = false := hi
      cases op <;> rfl
  | jp | jpRegister | jr | djnz | call | ret | rst | reti | retn | halt =>
      exact absurd hi (Bool.noConfusion)
  | _ => rfl

end Machine
end Z80Machine
